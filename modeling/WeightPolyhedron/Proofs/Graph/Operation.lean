import WeightPolyhedron.Proofs.Graph.Edges

/-!
Sequences of operations on a graph. Whatever keys the operations are given, also keys of removed
nodes and a key twice, the graph stays simple, and the pairs of nodes that are joined change as each
operation says.
-/

namespace WeightPolyhedron

namespace Graph

inductive Operation where
  | addNode (vertex : VertexKey) (untested : Bool)
  | removeNode (n : NodeKey)
  | addEdge (u v : NodeKey)
  | clearEdges (n : NodeKey)
  | takeUntested
  | markUntested (n : NodeKey)
  | unmarkUntested (n : NodeKey)
deriving Repr, DecidableEq

def perform (g : Graph) : Operation → Graph
  | .addNode vertex untested => (g.addNode vertex untested).2
  | .removeNode n => (g.removeNode n).2
  | .addEdge u v => (g.addEdge u v).2
  | .clearEdges n => g.clearEdges n
  | .takeUntested => g.takeUntested.2
  | .markUntested n => (g.markUntested n).2
  | .unmarkUntested n => (g.unmarkUntested n).2

def after (g : Graph) (operations : List Operation) : Graph := operations.foldl perform g

variable {g : Graph} {n u v a b : NodeKey}

theorem IsSimple.perform (hg : g.IsSimple) (operation : Operation) :
    (g.perform operation).IsSimple := by
  cases operation with
  | addNode vertex untested => exact hg.addNode vertex untested
  | removeNode n => exact hg.removeNode n
  | addEdge u v => exact hg.addEdge u v
  | clearEdges n => exact hg.clearEdges n
  | takeUntested => exact hg.takeUntested
  | markUntested n => exact hg.markUntested n
  | unmarkUntested n => exact hg.unmarkUntested n

theorem IsSimple.after (hg : g.IsSimple) (operations : List Operation) :
    (g.after operations).IsSimple := by
  induction operations generalizing g with
  | nil => exact hg
  | cons operation operations ih => exact ih (hg.perform operation)

theorem hasEdge_iff : g.hasEdge u v ↔ v ∈ g.neighbors u := by
  simp [hasEdge]

theorem hasEdge_addEdge : (g.addEdge u v).2.hasEdge a b ↔
    g.hasEdge a b ∨ (g.addEdge u v).1 ∧ s(a, b) = s(u, v) := by
  simp only [hasEdge_iff, mem_neighbors_addEdge, Sym2.eq_iff]

/-- Nodes are joined by an operation exactly if it tells so. -/
theorem addEdge_fst_iff_hasEdge :
    (g.addEdge u v).1 ↔ ¬ g.hasEdge u v ∧ (g.addEdge u v).2.hasEdge u v := by
  rw [hasEdge_addEdge]
  constructor
  · intro h
    exact ⟨mt hasEdge_iff.1 (addEdge_fst_iff.1 h).2.2.2, .inr ⟨h, rfl⟩⟩
  · rintro ⟨hnot, h | h⟩
    · exact absurd h hnot
    · exact h.1

theorem IsSimple.hasEdge_removeNode (hg : g.IsSimple) :
    (g.removeNode n).2.hasEdge a b ↔ g.hasEdge a b ∧ n ∉ s(a, b) := by
  simp only [hasEdge_iff, hg.mem_neighbors_removeNode, Sym2.mem_iff, not_or, eq_comm (a := n)]

theorem IsSimple.hasEdge_clearEdges (hg : g.IsSimple) :
    (g.clearEdges n).hasEdge a b ↔ g.hasEdge a b ∧ n ∉ s(a, b) := by
  simp only [hasEdge_iff, hg.mem_neighbors_clearEdges, Sym2.mem_iff, not_or, eq_comm (a := n)]

theorem IsSimple.count_ends (hg : g.IsSimple) (u v : NodeKey) :
    (g.edges.map Edge.ends).count s(u, v) = if g.hasEdge u v then 1 else 0 := by
  rw [hg.nodup_ends.count]
  simp only [hg.mem_ends_iff, hasEdge_iff]

theorem between_of_mem_edges {e : Edge} (he : e ∈ g.edges) : e = Edge.between e.fst e.snd := by
  obtain ⟨n, u, -, -, rfl⟩ := mem_edges.1 he
  rw [Edge.between_eq_iff]
  exact (Edge.ends_between n u).symm

/-- A graph made by operations is a simple undirected graph: neighbours are in the graph, edges go
both ways, none is a loop and none is double, and marks are on nodes of the graph. Its list of edges
has each joined pair once, in the form that tells it from every other pair. Joining tells whether
there is a new pair, and removing a node or clearing its edges takes away the pairs with that
node. -/
theorem simple_undirected_after (operations : List Operation) :
    let g := empty.after operations
    (∀ n, ∀ u ∈ g.neighbors n, g.contains u ∧ n ∈ g.neighbors u ∧ u ≠ n) ∧
    (∀ n, (g.neighbors n).Nodup) ∧
    (∀ n ∈ g.untested, g.contains n) ∧
    (∀ n ∈ g.lastTaken, g.contains n) ∧
    (∀ u v, (g.edges.map Edge.ends).count s(u, v) = if g.hasEdge u v then 1 else 0) ∧
    (∀ e ∈ g.edges, e = Edge.between e.fst e.snd) ∧
    (∀ a b c d, Edge.between a b = Edge.between c d ↔ s(a, b) = s(c, d)) ∧
    g.numberOfEdges = g.edges.length ∧
    (∀ u v, ((g.addEdge u v).1 ↔ ¬ g.hasEdge u v ∧ (g.addEdge u v).2.hasEdge u v) ∧
      ((g.addEdge u v).1 ↔ u ≠ v ∧ g.contains u ∧ g.contains v ∧ ¬ g.hasEdge u v) ∧
      ∀ a b, (g.addEdge u v).2.hasEdge a b ↔
        g.hasEdge a b ∨ (g.addEdge u v).1 ∧ s(a, b) = s(u, v)) ∧
    (∀ n a b, (g.removeNode n).2.hasEdge a b ↔ g.hasEdge a b ∧ n ∉ s(a, b)) ∧
    ∀ n a b, (g.clearEdges n).hasEdge a b ↔ g.hasEdge a b ∧ n ∉ s(a, b) := by
  intro g
  have hg : g.IsSimple := isSimple_empty.after operations
  refine ⟨?neighbors, hg.nodup, fun _ => hg.untested_contains, fun _ => hg.lastTaken_contains,
    hg.count_ends, fun _ => between_of_mem_edges, fun _ _ _ _ => Edge.between_eq_iff,
    hg.numberOfEdges_eq, ?joined, fun _ _ _ => hg.hasEdge_removeNode,
    fun _ _ _ => hg.hasEdge_clearEdges⟩
  case neighbors =>
    intro n u hu
    refine ⟨hg.contains_neighbor hu, hg.symm hu, ?_⟩
    rintro rfl
    exact hg.irrefl u hu
  case joined =>
    intro u v
    refine ⟨addEdge_fst_iff_hasEdge, ?_, fun _ _ => hasEdge_addEdge⟩
    rw [addEdge_fst_iff, hasEdge_iff]

end Graph

end WeightPolyhedron
