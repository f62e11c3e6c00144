import WeightPolyhedron.Mesh.Cut
import WeightPolyhedron.Proofs.Graph
import WeightPolyhedron.Proofs.Vertex

/-!
Sound meshes: each node stands for a stored vertex that names the node and has as many facets as
there are objectives, and edges join neighbours only. Each change that a cut makes of a mesh is
described by what it does to vertices, neighbours and marks, and keeps the mesh sound.
-/

namespace WeightPolyhedron

namespace Mesh

variable {α : Type} {m : Mesh α} {p bound : Nat} {n k u : NodeKey} {v w : Vertex α}

theorem vertex?_eq_some_iff : m.vertex? n = some v ↔
    ∃ key, m.graph.vertexOf? n = some key ∧ m.vertices.get? key = some v := by
  simp [vertex?, Option.bind_eq_some_iff]

theorem vertexAt_eq_ok_iff : m.vertexAt n = .ok v ↔ m.vertex? n = some v := by
  unfold vertexAt
  split <;> simp [*]

theorem contains_of_vertex? (h : m.vertex? n = some v) : m.graph.contains n := by
  obtain ⟨key, hkey, -⟩ := vertex?_eq_some_iff.1 h
  exact Graph.contains_iff.2 ⟨key, hkey⟩

/-- Each node stands for a stored vertex that names the node. -/
structure IsLinked (m : Mesh α) : Prop where
  stored : ∀ {n key}, m.graph.vertexOf? n = some key →
    ∃ v, m.vertices.get? key = some v ∧ v.node = some n

namespace IsLinked

theorem exists_key (h : m.IsLinked) (hn : m.graph.contains n) :
    ∃ key v, m.graph.vertexOf? n = some key ∧ m.vertices.get? key = some v ∧ v.node = some n ∧
      m.vertex? n = some v := by
  obtain ⟨key, hkey⟩ := Graph.contains_iff.1 hn
  obtain ⟨v, hv, hnode⟩ := h.stored hkey
  exact ⟨key, v, hkey, hv, hnode, vertex?_eq_some_iff.2 ⟨key, hkey, hv⟩⟩

theorem node_eq (h : m.IsLinked) (hv : m.vertex? n = some v) : v.node = some n := by
  obtain ⟨key, hkey, hget⟩ := vertex?_eq_some_iff.1 hv
  obtain ⟨w, hw, hnode⟩ := h.stored hkey
  exact Option.some.inj (hget.symm.trans hw) ▸ hnode

/-- Different nodes stand for different vertices. -/
theorem vertexOf?_inj (h : m.IsLinked) {key : VertexKey}
    (hn : m.graph.vertexOf? n = some key) (hk : m.graph.vertexOf? k = some key) : n = k := by
  obtain ⟨v, hv, hvn⟩ := h.stored hn
  obtain ⟨w, hw, hwk⟩ := h.stored hk
  obtain rfl := Option.some.inj (hv.symm.trans hw)
  exact Option.some.inj (hvn.symm.trans hwk)

end IsLinked

/-- The structure that reports rely on and keep, over `p` objectives and with facets below a
bound. -/
structure IsSound (m : Mesh α) (p bound : Nat) : Prop where
  simple : m.graph.IsSimple
  stored : ∀ {n}, m.graph.contains n →
    ∃ v, m.vertex? n = some v ∧ v.node = some n ∧ v.IsShaped p bound
  adjacent : ∀ {n u v w}, u ∈ m.graph.neighbors n → m.vertex? n = some v → m.vertex? u = some w →
    v.isNeighbour w
  lastTaken_tested : ∀ {n}, m.graph.lastTaken = some n → n ∉ m.graph.untested

namespace IsSound

theorem node_eq (h : m.IsSound p bound) (hv : m.vertex? n = some v) : v.node = some n := by
  obtain ⟨w, hw, hnode, -⟩ := h.stored (contains_of_vertex? hv)
  rw [hv] at hw
  exact Option.some.inj hw ▸ hnode

theorem isShaped (h : m.IsSound p bound) (hv : m.vertex? n = some v) : v.IsShaped p bound := by
  obtain ⟨w, hw, -, hshape⟩ := h.stored (contains_of_vertex? hv)
  rw [hv] at hw
  exact Option.some.inj hw ▸ hshape

theorem contains_iff_vertex? (h : m.IsSound p bound) :
    m.graph.contains n ↔ ∃ v, m.vertex? n = some v :=
  ⟨fun hn => (h.stored hn).imp fun _ => And.left, fun hn => hn.elim fun _ => contains_of_vertex?⟩

theorem linked (h : m.IsSound p bound) : m.IsLinked := by
  refine ⟨fun {n key} hkey => ?_⟩
  obtain ⟨v, hv, hnode, -⟩ := h.stored (Graph.contains_iff.2 ⟨key, hkey⟩)
  obtain ⟨_, hkey', hget⟩ := vertex?_eq_some_iff.1 hv
  exact ⟨v, Option.some.inj (hkey.symm.trans hkey') ▸ hget, hnode⟩

theorem mono (h : m.IsSound p bound) {larger : Nat} (hle : bound ≤ larger) :
    m.IsSound p larger where
  simple := h.simple
  stored hn := by
    obtain ⟨v, hv, hnode, hshape⟩ := h.stored hn
    exact ⟨v, hv, hnode, hshape.mono hle⟩
  adjacent := h.adjacent
  lastTaken_tested := h.lastTaken_tested

end IsSound

theorem isSound_empty : (empty : Mesh α).IsSound p bound where
  simple := Graph.isSimple_empty
  stored hn := by simp [empty, Graph.empty, Graph.contains, Arena.contains] at hn
  adjacent hu := by simp [empty, Graph.empty, Graph.neighbors] at hu
  lastTaken_tested hn := by simp [empty, Graph.empty] at hn

@[simp] theorem attach_fst (m : Mesh α) (v : Vertex α) (b : Bool) :
    (m.attach v b).1 = m.graph.nodes.nextKey := by
  simp [attach]

theorem attach_graph (m : Mesh α) (v : Vertex α) (b : Bool) :
    (m.attach v b).2.graph = (m.graph.addNode m.vertices.nextKey b).2 := by
  simp [attach]

theorem attach_vertices (m : Mesh α) (v : Vertex α) (b : Bool) :
    (m.attach v b).2.vertices = (m.vertices.insert v).2.modify m.vertices.nextKey
      fun v => { v with node := some m.graph.nodes.nextKey } := by
  simp [attach]

theorem IsLinked.vertex?_attach (h : m.IsLinked) (v : Vertex α) (b : Bool) (k : NodeKey) :
    (m.attach v b).2.vertex? k =
      if k = m.graph.nodes.nextKey then some { v with node := some m.graph.nodes.nextKey }
      else m.vertex? k := by
  simp only [vertex?, attach_graph, Graph.vertexOf?_addNode, attach_vertices]
  split_ifs with hk
  · simp [Arena.get?_modify, Arena.get?_insert]
  · cases hkey : m.graph.vertexOf? k with
    | none => rfl
    | some key =>
      obtain ⟨w, hget, -⟩ := h.stored hkey
      -- the key of a stored vertex is not the next key
      have hne : key ≠ m.vertices.nextKey := by
        rintro rfl
        simp at hget
      simp [Arena.get?_modify, Arena.get?_insert, hne]

theorem IsSound.attach (h : m.IsSound p bound) (hv : v.IsShaped p bound) (b : Bool) :
    (m.attach v b).2.IsSound p bound where
  simple := attach_graph m v b ▸ h.simple.addNode ..
  stored {n} hn := by
    rw [attach_graph, Graph.contains_addNode] at hn
    rw [h.linked.vertex?_attach]
    split_ifs with hk
    · exact ⟨_, rfl, by rw [hk], hv.withNode _⟩
    · exact h.stored (hn.resolve_left hk)
  adjacent {n u a c} hu ha hc := by
    rw [attach_graph, Graph.neighbors_addNode] at hu
    have hnew := m.graph.not_contains_nextKey
    have hn : n ≠ m.graph.nodes.nextKey := by
      rintro rfl
      exact hnew (Graph.contains_of_mem_neighbors hu)
    have hu' : u ≠ m.graph.nodes.nextKey := by
      rintro rfl
      exact hnew (h.simple.contains_neighbor hu)
    rw [h.linked.vertex?_attach, if_neg hn] at ha
    rw [h.linked.vertex?_attach, if_neg hu'] at hc
    exact h.adjacent hu ha hc
  lastTaken_tested {n} hn := by
    rw [attach_graph, Graph.addNode_lastTaken] at hn
    rw [attach_graph, Graph.mem_untested_addNode]
    rintro (⟨-, rfl⟩ | hu)
    exacts [m.graph.not_contains_nextKey (h.simple.lastTaken_contains hn),
      h.lastTaken_tested hn hu]

@[simp] theorem join_graph (m : Mesh α) (u v : NodeKey) :
    (m.join u v).graph = (m.graph.addEdge u v).2 := rfl

@[simp] theorem vertex?_join (m : Mesh α) (u v k : NodeKey) :
    (m.join u v).vertex? k = m.vertex? k := by
  simp only [vertex?, join_graph, Graph.vertexOf?_addEdge]
  rfl

theorem IsSound.join (h : m.IsSound p bound)
    (hedge : ∀ {a b}, m.vertex? u = some a → m.vertex? k = some b → a.isNeighbour b) :
    (m.join u k).IsSound p bound where
  simple := h.simple.addEdge u k
  stored hn := by
    simp only [vertex?_join]
    exact h.stored (by simpa using hn)
  adjacent {n n' a b} hn ha hb := by
    rw [vertex?_join] at ha hb
    rw [join_graph, Graph.mem_neighbors_addEdge] at hn
    rcases hn with hn | ⟨-, ⟨rfl, rfl⟩ | ⟨rfl, rfl⟩⟩
    · exact h.adjacent hn ha hb
    · exact hedge ha hb
    · exact (Vertex.isNeighbour_comm (h.isShaped hb) (h.isShaped ha)).1 (hedge hb ha)
  lastTaken_tested hn := by
    rw [join_graph, Graph.addEdge_lastTaken] at hn
    rw [join_graph, Graph.addEdge_untested]
    exact h.lastTaken_tested hn

/-- A new vertex that is joined to an old one. -/
theorem mem_neighbors_attach_join (v : Vertex α) (b : Bool) {x : NodeKey}
    (hu : m.graph.contains u) :
    x ∈ ((m.attach v b).2.join m.graph.nodes.nextKey u).graph.neighbors k ↔
      x ∈ m.graph.neighbors k ∨ (k = m.graph.nodes.nextKey ∧ x = u) ∨
        (k = u ∧ x = m.graph.nodes.nextKey) := by
  have hnew := m.graph.not_contains_nextKey
  have hne : m.graph.nodes.nextKey ≠ u := fun heq => hnew (heq ▸ hu)
  have hjoined : ((m.attach v b).2.graph.addEdge m.graph.nodes.nextKey u).1 := by
    rw [Graph.addEdge_fst_iff, attach_graph, Graph.contains_addNode, Graph.contains_addNode,
      Graph.neighbors_addNode, Graph.neighbors_of_not_contains hnew]
    exact ⟨hne, .inl rfl, .inr hu, by simp⟩
  rw [join_graph, Graph.mem_neighbors_addEdge, and_iff_right hjoined, attach_graph,
    Graph.neighbors_addNode]

theorem unmark_graph_nodes (m : Mesh α) (l : List NodeKey) :
    (m.unmark l).graph.nodes = m.graph.nodes := by
  suffices h : ∀ g : Graph, (l.foldl (fun g n => (g.unmarkUntested n).2) g).nodes = g.nodes from
    h m.graph
  induction l with
  | nil => exact fun _ => rfl
  | cons n l ih => exact fun g => (ih _).trans rfl

@[simp] theorem unmark_lastTaken (m : Mesh α) (l : List NodeKey) :
    (m.unmark l).graph.lastTaken = m.graph.lastTaken := by
  suffices h : ∀ g : Graph,
      (l.foldl (fun g n => (g.unmarkUntested n).2) g).lastTaken = g.lastTaken from h m.graph
  induction l with
  | nil => exact fun _ => rfl
  | cons n l ih => exact fun g => (ih _).trans rfl

theorem untested_unmark (m : Mesh α) (l : List NodeKey) :
    (m.unmark l).graph.untested = l.foldl (fun marks n => marks.erase n) m.graph.untested := by
  suffices h : ∀ g : Graph, (l.foldl (fun g n => (g.unmarkUntested n).2) g).untested =
      l.foldl (fun marks n => marks.erase n) g.untested from h m.graph
  induction l with
  | nil => exact fun _ => rfl
  | cons n l ih => exact fun g => (ih _).trans rfl

@[simp] theorem neighbors_unmark (m : Mesh α) (l : List NodeKey) (k : NodeKey) :
    (m.unmark l).graph.neighbors k = m.graph.neighbors k := by
  simp only [Graph.neighbors, unmark_graph_nodes]

@[simp] theorem contains_unmark (m : Mesh α) (l : List NodeKey) (k : NodeKey) :
    (m.unmark l).graph.contains k = m.graph.contains k := by
  simp only [Graph.contains, unmark_graph_nodes]

@[simp] theorem vertex?_unmark (m : Mesh α) (l : List NodeKey) (k : NodeKey) :
    (m.unmark l).vertex? k = m.vertex? k := by
  simp only [vertex?, Graph.vertexOf?, unmark_graph_nodes]
  rfl

theorem foldl_erase_nodup {marks l : List NodeKey} (h : marks.Nodup) :
    (l.foldl (fun marks n => marks.erase n) marks).Nodup ∧
      ∀ k, k ∈ l.foldl (fun marks n => marks.erase n) marks ↔ k ∈ marks ∧ k ∉ l := by
  induction l generalizing marks with
  | nil => simpa using h
  | cons n l ih =>
    obtain ⟨hnodup, hmem⟩ := ih (h.erase n)
    refine ⟨hnodup, fun k => ?_⟩
    rw [List.foldl_cons, hmem, h.mem_erase_iff, List.mem_cons]
    tauto

theorem IsSound.mem_untested_unmark (h : m.IsSound p bound) (l : List NodeKey) :
    k ∈ (m.unmark l).graph.untested ↔ k ∈ m.graph.untested ∧ k ∉ l := by
  rw [untested_unmark, (foldl_erase_nodup h.simple.untested_nodup).2]

theorem IsSound.unmark (h : m.IsSound p bound) (l : List NodeKey) :
    (m.unmark l).IsSound p bound where
  simple := by
    apply h.simple.of_nodes_eq (unmark_graph_nodes m l)
    · exact fun n hn => h.simple.untested_contains ((h.mem_untested_unmark l).1 hn).1
    · rw [untested_unmark]
      exact (foldl_erase_nodup h.simple.untested_nodup).1
    · exact fun n hn => h.simple.lastTaken_contains (by simpa using hn)
  stored hn := by
    simp only [vertex?_unmark]
    exact h.stored (by simpa using hn)
  adjacent hu ha hb := h.adjacent (by simpa using hu) (by simpa using ha) (by simpa using hb)
  lastTaken_tested hn hu :=
    h.lastTaken_tested (by simpa using hn) ((h.mem_untested_unmark l).1 hu).1

@[simp] theorem setVertex_graph (m : Mesh α) (n : NodeKey) (v : Vertex α) :
    (m.setVertex n v).graph = m.graph := by
  unfold setVertex
  split <;> rfl

theorem IsLinked.vertex?_setVertex (h : m.IsLinked) (hn : m.graph.contains n) (v : Vertex α)
    (k : NodeKey) : (m.setVertex n v).vertex? k = if k = n then some v else m.vertex? k := by
  obtain ⟨key, w, hkey, hget, -⟩ := h.exists_key hn
  have hvertices : (m.setVertex n v).vertices = m.vertices.modify key fun _ => v := by
    simp [setVertex, hkey]
  simp only [vertex?, setVertex_graph, hvertices]
  split_ifs with hk
  · subst hk
    simp [hkey, Arena.get?_modify, hget]
  · cases hkey' : m.graph.vertexOf? k with
    | none => rfl
    | some key' =>
      have hne : key' ≠ key := by
        rintro rfl
        exact hk (h.vertexOf?_inj hkey' hkey)
      simp [Arena.get?_modify, hne]

theorem reopen_snd (m : Mesh α) (n : NodeKey) : (m.reopen n).2 = { m with
    graph := if m.graph.lastTaken = some n then m.graph.clearEdges n
      else ((m.graph.clearEdges n).markUntested n).2 } := by
  simp only [reopen, show (m.graph.clearEdges n).lastTaken = m.graph.lastTaken from rfl]
  split_ifs <;> rfl

/-- A node is opened unless it was handed out last or is marked already. -/
theorem reopen_fst (m : Mesh α) (n : NodeKey) : (m.reopen n).1 ↔
    m.graph.lastTaken ≠ some n ∧ m.graph.contains n ∧ n ∉ m.graph.untested := by
  have huntested : (m.graph.clearEdges n).untested = m.graph.untested := rfl
  have hmark : ((m.graph.clearEdges n).markUntested n).1 ↔
      m.graph.contains n ∧ n ∉ m.graph.untested := by
    rw [← Graph.contains_clearEdges m.graph n n, ← huntested]
    unfold Graph.markUntested
    split_ifs with h <;> simpa [Graph.isUntested] using h
  simp only [reopen, show (m.graph.clearEdges n).lastTaken = m.graph.lastTaken from rfl]
  split_ifs with hlast
  · simp [hlast]
  · simpa [hlast] using hmark

theorem reopen_graph_nodes (m : Mesh α) (n : NodeKey) :
    (m.reopen n).2.graph.nodes = (m.graph.clearEdges n).nodes := by
  rw [reopen_snd]
  split_ifs
  · rfl
  · exact Graph.markUntested_nodes _ n

theorem vertexOf?_reopen (m : Mesh α) (n k : NodeKey) :
    (m.reopen n).2.graph.vertexOf? k = m.graph.vertexOf? k := by
  rw [← Graph.vertexOf?_clearEdges m.graph n k]
  simp only [Graph.vertexOf?, reopen_graph_nodes]

@[simp] theorem vertex?_reopen (m : Mesh α) (n k : NodeKey) :
    (m.reopen n).2.vertex? k = m.vertex? k := by
  have hvertices : (m.reopen n).2.vertices = m.vertices := by rw [reopen_snd]
  simp only [vertex?, vertexOf?_reopen, hvertices]

@[simp] theorem neighbors_reopen (m : Mesh α) (n k : NodeKey) :
    (m.reopen n).2.graph.neighbors k = (m.graph.clearEdges n).neighbors k := by
  simp only [Graph.neighbors, reopen_graph_nodes]

@[simp] theorem contains_reopen (m : Mesh α) (n k : NodeKey) :
    (m.reopen n).2.graph.contains k ↔ m.graph.contains k := by
  rw [← Graph.contains_clearEdges m.graph n k]
  simp only [Graph.contains, reopen_graph_nodes]

@[simp] theorem reopen_lastTaken (m : Mesh α) (n : NodeKey) :
    (m.reopen n).2.graph.lastTaken = m.graph.lastTaken := by
  rw [reopen_snd]
  split_ifs
  · rfl
  · exact Graph.markUntested_lastTaken _ n

theorem mem_untested_reopen : k ∈ (m.reopen n).2.graph.untested ↔
    k ∈ m.graph.untested ∨ (k = n ∧ m.graph.contains n ∧ m.graph.lastTaken ≠ some n) := by
  have huntested : (m.graph.clearEdges n).untested = m.graph.untested := rfl
  rw [reopen_snd]
  split_ifs with h
  · simp [h, huntested]
  · simp only [Graph.mem_untested_markUntested, huntested, Graph.contains_clearEdges]
    tauto

theorem isSimple_reopen (h : m.graph.IsSimple) (n : NodeKey) : (m.reopen n).2.graph.IsSimple := by
  rw [reopen_snd]
  split_ifs
  · exact h.clearEdges n
  · exact (h.clearEdges n).markUntested n

theorem IsSound.descend (h : m.IsSound p bound) (hn : m.graph.contains n) (hnode : v.node = some n)
    (hv : v.IsShaped p bound) : ((m.setVertex n v).reopen n).2.IsSound p bound where
  simple := isSimple_reopen (by simpa using h.simple) n
  stored {k} hk := by
    rw [vertex?_reopen, h.linked.vertex?_setVertex hn]
    split_ifs with hkn
    · exact ⟨v, rfl, hkn ▸ hnode, hv⟩
    · exact h.stored (by simpa using hk)
  adjacent {k u a b} hu ha hb := by
    rw [neighbors_reopen, setVertex_graph, h.simple.mem_neighbors_clearEdges] at hu
    rw [vertex?_reopen, h.linked.vertex?_setVertex hn, if_neg hu.2.1] at ha
    rw [vertex?_reopen, h.linked.vertex?_setVertex hn, if_neg hu.2.2] at hb
    exact h.adjacent hu.1 ha hb
  lastTaken_tested {k} hk := by
    rw [reopen_lastTaken, setVertex_graph] at hk
    rw [mem_untested_reopen, setVertex_graph]
    rintro (hu | ⟨rfl, -, hne⟩)
    exacts [h.lastTaken_tested hk hu, hne hk]

@[simp] theorem discard_graph (m : Mesh α) (retention : Retention) (n : NodeKey) :
    (m.discard retention n).graph = (m.graph.removeNode n).2 := by
  unfold discard
  split
  · next h => rw [h]
  · next h => cases retention <;> rw [h]

theorem IsLinked.vertex?_discard (h : m.IsLinked) (retention : Retention) (n k : NodeKey) :
    (m.discard retention n).vertex? k = if k = n then none else m.vertex? k := by
  simp only [vertex?, discard_graph, Graph.vertexOf?_removeNode]
  split_ifs with hk
  · rfl
  · cases hkey : m.graph.vertexOf? k with
    | none => rfl
    | some key =>
      have hfst := Graph.removeNode_fst m.graph n
      unfold discard
      split
      · rfl
      · next removed graph heq =>
        rw [heq] at hfst
        -- the vertex of another node is stored under another key
        have hne : key ≠ removed := by
          rintro rfl
          exact hk (h.vertexOf?_inj hkey hfst.symm)
        cases retention <;> simp [Arena.get?_modify, Arena.get?_erase, hne]

theorem IsSound.discard (h : m.IsSound p bound) (retention : Retention) (n : NodeKey) :
    (m.discard retention n).IsSound p bound where
  simple := by
    rw [discard_graph]
    exact h.simple.removeNode n
  stored {k} hk := by
    rw [discard_graph, Graph.contains_removeNode] at hk
    rw [h.linked.vertex?_discard, if_neg hk.1]
    exact h.stored hk.2
  adjacent {k u a b} hu ha hb := by
    rw [discard_graph, h.simple.mem_neighbors_removeNode] at hu
    rw [h.linked.vertex?_discard, if_neg hu.2.1] at ha
    rw [h.linked.vertex?_discard, if_neg hu.2.2] at hb
    exact h.adjacent hu.1 ha hb
  lastTaken_tested {k} hk hu := by
    rw [discard_graph] at hk hu
    by_cases hn : m.graph.contains n
    · rw [Graph.lastTaken_removeNode hn] at hk
      rw [Graph.untested_removeNode hn] at hu
      split_ifs at hk
      exact h.lastTaken_tested hk (List.mem_of_mem_erase hu)
    · rw [Graph.removeNode_of_not_contains hn] at hk hu
      exact h.lastTaken_tested hk hu

theorem vertex?_takeUntested (m : Mesh α) (n : NodeKey) :
    Mesh.vertex? { m with graph := m.graph.takeUntested.2 } n = m.vertex? n := by
  simp only [vertex?, Graph.vertexOf?, Graph.takeUntested_nodes]

theorem IsSound.takeUntested (h : m.IsSound p bound) :
    Mesh.IsSound { m with graph := m.graph.takeUntested.2 } p bound where
  simple := h.simple.takeUntested
  stored {n} hn := by
    rw [vertex?_takeUntested]
    exact h.stored (by simpa only [Graph.contains, Graph.takeUntested_nodes] using hn)
  adjacent {n u a b} hu ha hb := by
    rw [vertex?_takeUntested] at ha hb
    exact h.adjacent (by simpa only [Graph.neighbors, Graph.takeUntested_nodes] using hu) ha hb
  lastTaken_tested {n} hlast hn := by
    cases htaken : m.graph.takeUntested.1 with
    | none =>
      rw [(Graph.takeUntested_eq_none htaken).2] at hlast hn
      exact h.lastTaken_tested hlast hn
    | some k =>
      rw [(Graph.takeUntested_eq_some htaken).2] at hlast hn
      obtain rfl := Option.some.inj hlast
      exact h.simple.untested_nodup.not_mem_erase hn

end Mesh

end WeightPolyhedron
