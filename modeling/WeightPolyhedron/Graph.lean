import WeightPolyhedron.Arena
/-!
The graph of the polyhedron: nodes that stand for vertices, undirected edges, the nodes whose weight
has not been handed out yet, and the node handed out last. An edge is listed at both of its ends.
-/

namespace WeightPolyhedron

/-- A node: the vertex it stands for, and the nodes it is joined to, in order of joining. -/
structure Node where
  vertex : VertexKey
  neighbors : List NodeKey
deriving Repr, DecidableEq

/-- An unordered pair of nodes, kept with the older end first. -/
structure Edge where
  fst : NodeKey
  snd : NodeKey
deriving Repr, DecidableEq

namespace Edge

def between (a b : NodeKey) : Edge := if a.byGeneration b then ⟨a, b⟩ else ⟨b, a⟩

def contains (e : Edge) (n : NodeKey) : Bool := e.fst = n || e.snd = n

end Edge

/-- Nodes, the untested ones among them in ascending order of slot, and the node handed out last. -/
structure Graph where
  nodes : Arena .node Node
  untested : List NodeKey
  lastTaken : Option NodeKey
deriving Repr

namespace Graph

def empty : Graph := ⟨.empty, [], none⟩

def contains (g : Graph) (n : NodeKey) : Bool := g.nodes.contains n

def vertexOf? (g : Graph) (n : NodeKey) : Option VertexKey := (g.nodes.get? n).map (·.vertex)

def neighbors (g : Graph) (n : NodeKey) : List NodeKey :=
  ((g.nodes.get? n).map (·.neighbors)).getD []

def size (g : Graph) : Nat := g.nodes.size

/-- Puts a key into a list ascending by slot, unless it is there. -/
def insertKey (n : NodeKey) : List NodeKey → List NodeKey
  | [] => [n]
  | other :: rest =>
    if n = other then other :: rest
    else if n.bySlot other then n :: other :: rest
    else other :: insertKey n rest

def addNode (g : Graph) (vertex : VertexKey) (untested : Bool) : NodeKey × Graph :=
  let (n, nodes) := g.nodes.insert ⟨vertex, []⟩
  (n, { g with nodes, untested := if untested then insertKey n g.untested else g.untested })

def unlist (nodes : Arena .node Node) (n other : NodeKey) : Arena .node Node :=
  nodes.modify other fun entry => { entry with neighbors := entry.neighbors.filter (· ≠ n) }

/-- Removes a node with its edges and marks, and gives the vertex that it stood for. -/
def removeNode (g : Graph) (n : NodeKey) : Option VertexKey × Graph :=
  match g.nodes.get? n with
  | none => (none, g)
  | some entry =>
    (some entry.vertex, {
      nodes := entry.neighbors.foldl (unlist · n ·) (g.nodes.erase n)
      untested := g.untested.erase n
      lastTaken := if g.lastTaken = some n then none else g.lastTaken })

def hasEdge (g : Graph) (u v : NodeKey) : Bool := (g.neighbors u).contains v

/-- Joins two different nodes of the graph that are not joined yet, and tells whether it did. -/
def addEdge (g : Graph) (u v : NodeKey) : Bool × Graph :=
  if u = v || !g.contains u || !g.contains v || g.hasEdge u v then
    (false, g)
  else
    let list (other : NodeKey) (entry : Node) :=
      { entry with neighbors := entry.neighbors ++ [other] }
    (true, { g with nodes := (g.nodes.modify u (list v)).modify v (list u) })

def clearEdges (g : Graph) (n : NodeKey) : Graph :=
  let cleared := g.nodes.modify n fun entry => { entry with neighbors := [] }
  { g with nodes := (g.neighbors n).foldl (unlist · n ·) cleared }

/-- The edges, each once: it is listed at the end that comes first in it. -/
def edges (g : Graph) : List Edge :=
  g.nodes.entries.flatMap fun (n, entry) =>
    (entry.neighbors.map (Edge.between n)).filter (·.fst = n)

def numberOfEdges (g : Graph) : Nat :=
  g.nodes.entries.foldl (fun n (_, entry) => n + entry.neighbors.length) 0 / 2

/-- Hands out an untested node: the first one, but no more is promised than that it is untested. -/
def takeUntested (g : Graph) : Option NodeKey × Graph :=
  match g.untested with
  | [] => (none, g)
  | n :: rest => (some n, { g with untested := rest, lastTaken := some n })

def isUntested (g : Graph) (n : NodeKey) : Bool := g.untested.contains n

def markUntested (g : Graph) (n : NodeKey) : Bool × Graph :=
  if g.contains n && !g.isUntested n then
    (true, { g with untested := insertKey n g.untested })
  else
    (false, g)

def unmarkUntested (g : Graph) (n : NodeKey) : Bool × Graph :=
  (g.isUntested n, { g with untested := g.untested.erase n })

end Graph

end WeightPolyhedron
