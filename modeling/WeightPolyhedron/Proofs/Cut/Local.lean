import WeightPolyhedron.Proofs.Skeleton.Start
import WeightPolyhedron.Proofs.Stored

/-!
A cut is local. Outside the violated region it changes nothing, the region is replaced by one new
node for each of its cut edges, and of the region only the nodes whose vertices descend are left.
-/

namespace WeightPolyhedron

variable {α : Type} {m m' : Mesh α} {p : Nat} {id : FacetId} {f : Facet α} {log : FacetLog α}
  {r : Region} {created : List NodeKey} {origin : NodeKey → NodeKey × NodeKey}
  {n k u seed : NodeKey}

theorem Mesh.vertexOf?_discards {nodes : List NodeKey} (retention : Retention) (hn : n ∉ nodes) :
    (nodes.foldl (·.discard retention ·) m).graph.vertexOf? n = m.graph.vertexOf? n := by
  induction nodes generalizing m with
  | nil => rfl
  | cons k nodes ih =>
    rw [List.mem_cons, not_or] at hn
    rw [List.foldl_cons, ih hn.2, Mesh.discard_graph, Graph.vertexOf?_removeNode, if_neg hn.1]

variable [Scalar α]

/-- The vertex on an edge has the facets that both ends have, and the new one. -/
theorem Vertex.facetSet_onEdge {a b w : Vertex α} (h : a.onEdge b id f = .ok w) :
    w.facetSet = insert id (a.facetSet ∩ b.facetSet) := by
  ext i
  simp [Vertex.mem_facets_onEdge h]

namespace Cut

namespace Effect

variable (h : Effect m m' p log id f r created origin)

include h

/-- The nodes that leave are those of the region that are not lowered. -/
theorem contains_iff_stays (hm : m.IsSound p id) (hr : r.IsAround m f seed) :
    m'.graph.contains n ↔
      (m.graph.contains n ∧ ¬ (n ∈ r.nodes ∧ ¬ m.Lowers log f n)) ∨ n ∈ created := by
  have hold : n ∈ r.nodes → m.graph.contains n := hr.contains
  rw [h.contains_iff hm, Fresh]
  tauto

theorem not_fresh (hn : m.graph.contains n) (hr : n ∉ r.nodes) : ¬ Fresh m log f r created n := by
  intro hc
  rcases hc with hc | hc
  exacts [h.created_new hc hn, hr hc.1]

/-- Among the nodes outside the region no edge comes or goes. -/
theorem mem_neighbors_outside (hn : m.graph.contains n) (hr : n ∉ r.nodes) (hu : m.graph.contains u)
    (hur : u ∉ r.nodes) : u ∈ m'.graph.neighbors n ↔ u ∈ m.graph.neighbors n := by
  have hnew : n ∉ created := fun hc => h.created_new hc hn
  have hunew : u ∉ created := fun hc => h.created_new hc hu
  have hfresh := h.not_fresh hn hr
  rw [h.mem_neighbors]
  tauto

/-- Of the nodes that are not fresh, only the surviving end of its edge is joined to a new node. -/
theorem mem_neighbors_created (hr : r.IsAround m f seed) (hn : n ∈ created) :
    u ∈ m'.graph.neighbors n ∧ ¬ Fresh m log f r created u ↔ u = (origin n).2 := by
  have hedge : origin n ∈ r.cutEdges := h.map_origin ▸ List.mem_map_of_mem hn
  obtain ⟨v, hv, -⟩ := hr.survivor hedge
  have hend := h.not_fresh (Mesh.contains_of_vertex? hv) (hr.mem_cutEdges.1 hedge).2
  constructor
  · rintro ⟨hu, hfresh⟩
    rcases h.mem_neighbors.1 hu with hold | hu | hc | hc
    · exact absurd (Graph.contains_of_mem_neighbors hold.1) (h.created_new hn)
    · exact hu.2
    · exact absurd (.inl hc.1) hfresh
    · exact absurd hc.2.1 hfresh
  · rintro rfl
    exact ⟨h.mem_neighbors.2 (.inr (.inl ⟨hn, rfl⟩)), hend⟩

/-- A lowered node keeps no edge to a node that is not fresh. -/
theorem fresh_of_mem_neighbors (hr : r.IsAround m f seed) (hn : n ∈ r.nodes)
    (hu : u ∈ m'.graph.neighbors n) : Fresh m log f r created u := by
  rcases h.mem_neighbors.1 hu with hold | hc | hc | hc
  · exact absurd hn hold.2.1
  · exact absurd (hr.contains hn) (h.created_new hc.1)
  · have hedge : origin u ∈ r.cutEdges := h.map_origin ▸ List.mem_map_of_mem hc.1
    exact absurd (hc.2 ▸ hn) (hr.mem_cutEdges.1 hedge).2
  · exact hc.2.1

/-- Fresh nodes are joined just if they have all facets but one in common. -/
theorem mem_neighbors_fresh (hn : Fresh m log f r created n) (hu : Fresh m log f r created u)
    {v w : Vertex α} (hv : m'.vertex? n = some v) (hw : m'.vertex? u = some w) :
    u ∈ m'.graph.neighbors n ↔ (v.facetSet ∩ w.facetSet).card + 1 = p := by
  rw [← Vertex.isNeighbour_iff (h.sound.isShaped hv) (h.sound.isShaped hw)]
  constructor
  · exact fun hedge => h.sound.adjacent hedge hv hw
  · exact fun hvw => h.mem_neighbors.2 (.inr (.inr (.inr ⟨hn, hu, v, w, hv, hw, hvw⟩)))

end Effect

/-- Nodes that do not leave keep the keys of their vertices. -/
theorem Phases.vertexOf?_eq {s₁ s₂ s₃ : Mesh α} {fates : List Fate} {retention : Retention}
    (h : Phases m s₁ s₂ s₃ m' p log id f seed r created origin fates)
    (hchanges : Relation.ReflTransGen Mesh.Change m s₃)
    (hm' : m' = (fates.filterMap (·.leaving?)).foldl (·.discard retention ·) s₃)
    (hn : m.graph.contains n) (hstays : ¬ (n ∈ r.nodes ∧ ¬ m.Lowers log f n)) :
    m'.graph.vertexOf? n = m.graph.vertexOf? n := by
  obtain ⟨key, hkey⟩ := Graph.contains_iff.1 hn
  rw [← h.mem_leaving] at hstays
  rw [hm', Mesh.vertexOf?_discards retention hstays, hkey, Mesh.vertexOf?_of_changes hchanges hkey]

/-- What a cut of a sound mesh does, node by node. The nodes of its region leave, apart from those
that are lowered, and each cut edge gets a new node. Nodes outside the region keep their vertices,
their marks and the edges among them. A new node has the facets that the ends of its edge have in
common and the new one, and it is joined to the surviving end; a lowered node keeps its weight and
loses its edges. New and lowered nodes are joined just if they have all facets but one in common,
and all of them are untested, apart from the one handed out last. -/
theorem cut_is_local (hm : m.IsSound p id) {retention : Retention} {stats : CutStats}
    (hcut : Mesh.cut log id f seed retention m = .ok stats m') :
    ∃ (r : Region) (created : List NodeKey) (origin : NodeKey → NodeKey × NodeKey),
      m.violatedRegion f seed = .ok r ∧
      let moved n := n ∈ r.nodes ∧ m.Lowers log f n
      let fresh n := n ∈ created ∨ moved n
      (created.Nodup ∧ created.map origin = r.cutEdges ∧ ∀ n ∈ created, ¬ m.graph.contains n) ∧
      (∀ n, m'.graph.contains n ↔
        (m.graph.contains n ∧ ¬ (n ∈ r.nodes ∧ ¬ moved n)) ∨ n ∈ created) ∧
      (∀ n, m.graph.contains n → n ∉ r.nodes →
        m'.graph.vertexOf? n = m.graph.vertexOf? n ∧ m'.vertex? n = m.vertex? n ∧
        (∀ u, m.graph.contains u → u ∉ r.nodes →
          (u ∈ m'.graph.neighbors n ↔ u ∈ m.graph.neighbors n)) ∧
        (n ∈ m'.graph.untested ↔ n ∈ m.graph.untested)) ∧
      (∀ n ∈ created, ∃ a b w, m.vertex? (origin n).1 = some a ∧ m.vertex? (origin n).2 = some b ∧
        m'.vertex? n = some w ∧ w.facetSet = insert id (a.facetSet ∩ b.facetSet) ∧
        ∀ u, u ∈ m'.graph.neighbors n ∧ ¬ fresh u ↔ u = (origin n).2) ∧
      (∀ n, moved n → ∃ v w, m.vertex? n = some v ∧ m'.vertex? n = some w ∧ w.weight = v.weight ∧
        m'.graph.vertexOf? n = m.graph.vertexOf? n ∧ ∀ u ∈ m'.graph.neighbors n, fresh u) ∧
      (∀ n u v w, fresh n → fresh u → m'.vertex? n = some v → m'.vertex? u = some w →
        (u ∈ m'.graph.neighbors n ↔ (v.facetSet ∩ w.facetSet).card + 1 = p)) ∧
      (∀ n, n ∈ m'.graph.untested ↔ (n ∈ m.graph.untested ∧ n ∉ r.nodes) ∨ n ∈ created ∨
        (moved n ∧ m.graph.lastTaken ≠ some n)) ∧
      (∀ n, m'.graph.lastTaken = some n ↔
        m.graph.lastTaken = some n ∧ ¬ (n ∈ r.nodes ∧ ¬ moved n)) ∧
      stats =
        ⟨.ofNat (r.cutEdges.length + m.loweredCount log f r.nodes), .ofNat r.nodes.length⟩ := by
  obtain ⟨r, created, origin, s₁, s₂, s₃, fates, hregion, hphases, hchanges, hm', hstats⟩ :=
    (cut_phases log f seed hm retention).of_ok hcut
  have h := hphases.effect
  have hr := hphases.around
  have hleaves (n : NodeKey) : (n ∈ r.nodes ∧ ¬ (n ∈ r.nodes ∧ m.Lowers log f n)) ↔
      (n ∈ r.nodes ∧ ¬ m.Lowers log f n) := by tauto
  have hkey {n : NodeKey} := hphases.vertexOf?_eq hchanges hm' (n := n)
  refine ⟨r, created, origin, hregion, ⟨?nodup, h.map_origin, fun _ => h.created_new⟩,
    ?nodes, ?outside, ?new, ?moved, fun _ _ _ _ hn hu hv hw => h.mem_neighbors_fresh hn hu hv hw,
    fun _ => h.mem_untested, ?last, ?stats⟩
  case nodup =>
    exact .of_map origin (h.map_origin ▸ hr.cutEdges_nodup hm.simple.nodup)
  case nodes =>
    intro n
    rw [hleaves, h.contains_iff_stays hm hr]
  case outside =>
    intro n hn hout
    have hnew : n ∉ created := fun hc => h.created_new hc hn
    refine ⟨hkey hn fun hc => hout hc.1, h.kept hout hnew,
      fun u hu hur => h.mem_neighbors_outside hn hout hu hur, ?_⟩
    rw [h.mem_untested]
    tauto
  case new =>
    intro n hn
    obtain ⟨a, b, w, ha, hb, hw, hv⟩ := h.created_vertex hn
    have hfacets : w.facetSet = insert id (a.facetSet ∩ b.facetSet) := Vertex.facetSet_onEdge hw
    exact ⟨a, b, _, ha, hb, hv, hfacets, fun u => h.mem_neighbors_created hr hn⟩
  case moved =>
    rintro n ⟨hn, hl⟩
    obtain ⟨v, w, hv, hw, hv'⟩ := h.lowered_vertex hn hl
    exact ⟨v, w, hv, hv', Vertex.weight_descend hw, hkey (hr.contains hn) fun hc => hc.2 hl,
      fun u hu => h.fresh_of_mem_neighbors hr hn hu⟩
  case last =>
    intro n
    rw [hleaves, h.lastTaken_iff]
  case stats =>
    rw [hstats, hphases.length_created, hphases.countP_isOpened]

/-- The corner of a triangle that a point cuts off is lowered, and the two edges at it are split. -/
theorem cut_is_local_at_corner :
    ∃ (m : Mesh Rat) (log : FacetLog Rat) (f : Facet Rat) (stats : CutStats)
    (m' : Mesh Rat) (r : Region) (created : List NodeKey) (origin : NodeKey → NodeKey × NodeKey),
    Mesh.cut log 4 f ⟨0, 0⟩ .deferred m = .ok stats m' ∧ m.violatedRegion f ⟨0, 0⟩ = .ok r ∧
      r.cutEdges.length = 2 ∧ created.map origin = r.cutEdges ∧
      stats = ⟨.ofNat (2 + m.loweredCount log f r.nodes), .ofNat r.nodes.length⟩ := by
  let m := Skeleton.cornerMesh (α := Rat) [3, 5, 4] 3 none
  let f : Facet Rat := ⟨[1, 6, 7, -1], .point⟩
  let log := ((FacetLog.ofSimplex 3).snoc ⟨[3, 5, 4, -1], .point⟩).snoc f
  obtain ⟨_, _, hclique⟩ := Skeleton.clique_cornerMesh (α := Rat) [3, 5, 4] none
  have hm : m.IsSound 3 4 := hclique.sound
  have htwo : (m.violatedRegion f ⟨0, 0⟩).toOption.any (·.cutEdges.length == 2) = true := by
    decide +kernel
  have hrun : (match Mesh.cut log 4 f ⟨0, 0⟩ .deferred m with
      | .ok .. => true
      | .error .. => false) = true := by
    decide +kernel
  clear_value m f log
  obtain ⟨r, hr, hlength⟩ := exists_ok_of_any htwo
  cases hcut : Mesh.cut log 4 f ⟨0, 0⟩ .deferred m with
  | error e m' => simp [hcut] at hrun
  | ok stats m' =>
    obtain ⟨r', created, origin, hregion, ⟨-, hmap, -⟩, -, -, -, -, -, -, -, hstats⟩ :=
      cut_is_local hm hcut
    obtain rfl : r = r' := Except.ok.inj (hr.symm.trans hregion)
    rw [beq_iff_eq] at hlength
    exact ⟨m, log, f, stats, m', r, created, origin, hcut, hregion, hlength, hmap, hlength ▸ hstats⟩

end Cut

end WeightPolyhedron
