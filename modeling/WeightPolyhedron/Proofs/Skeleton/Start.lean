import WeightPolyhedron.Skeleton
import WeightPolyhedron.Proofs.Cut.Change
import WeightPolyhedron.Proofs.Cut.Join

/-!
The mesh of a first point: one node for each corner of the simplex, all joined to each other, and
all untested but the originating one.
-/

namespace WeightPolyhedron

variable {α : Type} {m : Mesh α} {p bound : Nat} {n k u : NodeKey}

namespace Mesh

/-- One node is joined to all of a list. -/
theorem IsSound.joinAll (h : m.IsSound p bound) {v : Vertex α} (hn : m.vertex? n = some v)
    (l : List NodeKey)
    (hl : ∀ k ∈ l, ∃ a, m.vertex? k = some a ∧ a.isNeighbour v) :
    Joined m (l.foldl (·.join · n) m) p bound
      fun k u => (k ∈ l ∧ u = n) ∨ (k = n ∧ u ∈ l) := by
  induction l generalizing m with
  | nil => exact ⟨h, fun _ => rfl, by simp, rfl, rfl⟩
  | cons x l ih =>
    obtain ⟨a, ha, hav⟩ := hl x (List.mem_cons_self ..)
    have hjoin : (m.join x n).IsSound p bound := h.join fun {y z} hy hz => by
      rw [ha, Option.some.injEq] at hy
      rw [hn, Option.some.injEq] at hz
      exact hy ▸ hz ▸ hav
    have ih := ih hjoin (by simpa using hn) fun k hk => by
      simpa only [vertex?_join] using hl k (List.mem_cons_of_mem _ hk)
    refine ⟨ih.sound, fun y => by rw [List.foldl_cons, ih.vertex?_eq, vertex?_join], ?_, ?_, ?_⟩
    · intro y z
      rw [List.foldl_cons, ih.mem_neighbors, h.mem_neighbors_join (h.ne_of_isNeighbour ha hn hav)
        (contains_of_vertex? ha) (contains_of_vertex? hn)]
      simp only [List.mem_cons]
      tauto
    · rw [List.foldl_cons, ih.untested_eq, join_graph, Graph.addEdge_untested]
    · rw [List.foldl_cons, ih.lastTaken_eq, join_graph, Graph.addEdge_lastTaken]

end Mesh

namespace Skeleton

/-- A mesh of some given vertices, all joined to each other. The origin of a node is its vertex,
with the answer to whether it is untested. -/
structure Clique (m : Mesh α) (p bound : Nat) (nodes : List NodeKey)
    (corners : List (Vertex α × Bool)) (origin : NodeKey → Vertex α × Bool) : Prop where
  sound : m.IsSound p bound
  map_origin : nodes.map origin = corners
  mem_of_contains : ∀ {n}, m.graph.contains n → n ∈ nodes
  vertex?_eq : ∀ {n}, n ∈ nodes → m.vertex? n = some { (origin n).1 with node := some n }
  mem_neighbors : ∀ {k u}, u ∈ m.graph.neighbors k ↔ k ∈ nodes ∧ u ∈ nodes ∧ k ≠ u
  mem_untested : ∀ {n}, n ∈ nodes → (n ∈ m.graph.untested ↔ (origin n).2)
  lastTaken_eq : m.graph.lastTaken = none

theorem addCorner_fst (m : Mesh α) (earlier : List NodeKey) (v : Vertex α) (untested : Bool) :
    (addCorner m earlier v untested).1 = m.graph.nodes.nextKey := by
  simp [addCorner]

theorem addCorner_snd (m : Mesh α) (earlier : List NodeKey) (v : Vertex α) (untested : Bool) :
    (addCorner m earlier v untested).2 =
      earlier.foldl (·.join · m.graph.nodes.nextKey) (m.attach v untested).2 := by
  simp only [addCorner]
  rw [← Mesh.attach_fst m v untested]

theorem changes_addCorner (m : Mesh α) (earlier : List NodeKey) (v : Vertex α) (untested : Bool) :
    Relation.ReflTransGen Mesh.Change m (addCorner m earlier v untested).2 := by
  rw [addCorner_snd]
  exact (Mesh.changes_foldl (fun m k => .single (.join m k _)) _).head (.attach m v untested)

theorem changes_addCorners (corners : List (Vertex α × Bool)) (m : Mesh α)
    (earlier : List NodeKey) :
    Relation.ReflTransGen Mesh.Change m (corners.foldl (fun (m, earlier) (v, untested) =>
      let (n, m) := addCorner m earlier v untested
      (m, earlier ++ [n])) (m, earlier)).1 := by
  induction corners generalizing m earlier with
  | nil => exact .refl
  | cons c corners ih => exact (changes_addCorner m earlier c.1 c.2).trans (ih _ _)

theorem changes_cornerMesh [Scalar α] (point : List α) (id : FacetId) (originating : Option Nat) :
    Relation.ReflTransGen Mesh.Change Mesh.empty (cornerMesh point id originating) :=
  changes_addCorners _ Mesh.empty []

/-- The pairs of different nodes, with one more node. -/
theorem mem_pairs_snoc {nodes : List NodeKey} (hn : n ∉ nodes) :
    (k ∈ nodes ++ [n] ∧ u ∈ nodes ++ [n] ∧ k ≠ u) ↔
      (k ∈ nodes ∧ u ∈ nodes ∧ k ≠ u) ∨ (k ∈ nodes ∧ u = n) ∨ (k = n ∧ u ∈ nodes) := by
  have hne {x : NodeKey} (hx : x ∈ nodes) : x ≠ n := fun heq => hn (heq ▸ hx)
  simp only [List.mem_append, List.mem_singleton]
  constructor
  · intro hs
    obtain ⟨hk, hu, hku⟩ := hs
    rcases hk with hk | rfl
    · exact hu.imp (fun hu => ⟨hk, hu, hku⟩) fun hu => .inl ⟨hk, hu⟩
    · exact .inr (.inr ⟨rfl, hu.resolve_right hku.symm⟩)
  · intro hs
    rcases hs with ⟨hk, hu, hku⟩ | ⟨hk, rfl⟩ | ⟨rfl, hu⟩
    · exact ⟨.inl hk, .inl hu, hku⟩
    · exact ⟨.inl hk, .inr rfl, hne hk⟩
    · exact ⟨.inr rfl, .inl hu, (hne hu).symm⟩

namespace Clique

variable {nodes : List NodeKey} {corners : List (Vertex α × Bool)}
  {origin : NodeKey → Vertex α × Bool} {v : Vertex α}

theorem nextKey_notMem (h : Clique m p bound nodes corners origin) :
    m.graph.nodes.nextKey ∉ nodes := by
  intro hc
  exact m.graph.not_contains_nextKey (Mesh.contains_of_vertex? (h.vertex?_eq hc))

/-- The new corner is joined to all earlier ones. -/
theorem joined (h : Clique m p bound nodes corners origin) (untested : Bool)
    (hv : v.IsShaped p bound) (hcorners : ∀ c ∈ corners, c.1.isNeighbour v) :
    Mesh.Joined (m.attach v untested).2 (addCorner m nodes v untested).2 p bound fun k u =>
      (k ∈ nodes ∧ u = m.graph.nodes.nextKey) ∨ (k = m.graph.nodes.nextKey ∧ u ∈ nodes) := by
  have hvertex := h.sound.linked.vertex?_attach v untested
  rw [addCorner_snd]
  apply (h.sound.attach hv untested).joinAll ((hvertex _).trans (if_pos rfl))
  intro k hk
  have hkn : k ≠ m.graph.nodes.nextKey := fun heq => h.nextKey_notMem (heq ▸ hk)
  refine ⟨_, (hvertex k).trans ((if_neg hkn).trans (h.vertex?_eq hk)), ?_⟩
  exact hcorners _ (h.map_origin ▸ List.mem_map_of_mem hk)

theorem addCorner (untested : Bool) (h : Clique m p bound nodes corners origin)
    (hv : v.IsShaped p bound) (hcorners : ∀ c ∈ corners, c.1.isNeighbour v) :
    Clique (addCorner m nodes v untested).2 p bound (nodes ++ [m.graph.nodes.nextKey])
      (corners ++ [(v, untested)])
      (Function.update origin m.graph.nodes.nextKey (v, untested)) := by
  have hjoined := h.joined untested hv hcorners
  have hne {k} (hk : k ∈ nodes) : k ≠ m.graph.nodes.nextKey := fun heq =>
    h.nextKey_notMem (heq ▸ hk)
  refine ⟨hjoined.sound, ?_, ?_, ?_, ?_, ?_, ?_⟩
  · rw [map_snoc_update h.nextKey_notMem, h.map_origin]
  · intro k hk
    rw [hjoined.sound.contains_iff_vertex?] at hk
    obtain ⟨w, hw⟩ := hk
    rw [hjoined.vertex?_eq, h.sound.linked.vertex?_attach] at hw
    rw [List.mem_append, List.mem_singleton]
    split_ifs at hw with heq
    · exact .inr heq
    · exact .inl (h.mem_of_contains (Mesh.contains_of_vertex? hw))
  · intro k hk
    rw [hjoined.vertex?_eq, h.sound.linked.vertex?_attach]
    rcases List.mem_append.1 hk with hk | hk
    · rw [if_neg (hne hk), Function.update_of_ne (hne hk), h.vertex?_eq hk]
    · obtain rfl := List.mem_singleton.1 hk
      rw [if_pos rfl, Function.update_self]
  · intro k u
    rw [mem_pairs_snoc h.nextKey_notMem, hjoined.mem_neighbors, Mesh.attach_graph,
      Graph.neighbors_addNode, h.mem_neighbors]
  · intro k hk
    rw [hjoined.untested_eq, Mesh.attach_graph, Graph.mem_untested_addNode]
    rcases List.mem_append.1 hk with hk | hk
    · rw [Function.update_of_ne (hne hk), ← h.mem_untested hk]
      simp [hne hk]
    · obtain rfl := List.mem_singleton.1 hk
      have hfresh : m.graph.nodes.nextKey ∉ m.graph.untested := fun hc =>
        m.graph.not_contains_nextKey (h.sound.simple.untested_contains hc)
      rw [Function.update_self]
      simp [hfresh]
  · rw [hjoined.lastTaken_eq, Mesh.attach_graph, Graph.addNode_lastTaken, h.lastTaken_eq]

end Clique

variable [Scalar α]

theorem clique_foldl (corners : List (Vertex α × Bool))
    (hshape : ∀ c ∈ corners, c.1.IsShaped p bound)
    (hpairs : corners.Pairwise fun c d => c.1.isNeighbour d.1) :
    ∃ nodes origin, Clique (corners.foldl (fun (m, earlier) (v, untested) =>
      let (n, m) := addCorner m earlier v untested
      (m, earlier ++ [n])) (Mesh.empty, [])).1 p bound nodes corners origin := by
  suffices h : ∀ back front (m : Mesh α) earlier origin, corners = front ++ back →
      Clique m p bound earlier front origin →
      ∃ nodes origin, Clique (back.foldl (fun (m, earlier) (v, untested) =>
        let (n, m) := addCorner m earlier v untested
        (m, earlier ++ [n])) (m, earlier)).1 p bound nodes corners origin by
    apply h corners [] Mesh.empty [] (fun _ => (⟨[], 0, [], none⟩, true)) rfl
    refine ⟨Mesh.isSound_empty, rfl, ?_, by simp, ?_, by simp, rfl⟩
    · intro n hn
      simp [Mesh.empty, Graph.empty, Graph.contains, Arena.contains] at hn
    · simp [Mesh.empty, Graph.empty, Graph.neighbors]
  intro back
  induction back with
  | nil =>
    intro front m earlier origin hsplit h
    exact ⟨earlier, origin, by rwa [hsplit, List.append_nil]⟩
  | cons c back ih =>
    intro front m earlier origin hsplit h
    obtain ⟨v, untested⟩ := c
    have hmem : (v, untested) ∈ corners := by simp [hsplit]
    rw [hsplit, List.pairwise_append] at hpairs
    have hnext := h.addCorner untested (hshape _ hmem) fun c hc =>
      hpairs.2.2 c hc _ (List.mem_cons_self ..)
    rw [← addCorner_fst m earlier v untested] at hnext
    exact ih (front ++ [(v, untested)]) _ _ _ (by simp [hsplit]) hnext

def cornersOver (point : List α) (originating : Option Nat) : List (Vertex α × Bool) :=
  point.zipIdx.filterMap fun (value, i) =>
    (Vertex.corner? i point.length value point.length).map fun v =>
      (v, decide (originating ≠ some i))

theorem mem_cornersOver {point : List α} {originating : Option Nat} {c : Vertex α × Bool} :
    c ∈ cornersOver point originating ↔ ∃ i value, point[i]? = some value ∧
      Vertex.corner? i point.length value point.length = some c.1 ∧
      c.2 = decide (originating ≠ some i) := by
  simp only [cornersOver, List.mem_filterMap, Prod.exists, List.mem_zipIdx_iff_getElem?,
    Option.map_eq_some_iff]
  constructor
  · intro hs
    obtain ⟨value, i, hi, v, hv, hc⟩ := hs
    subst hc
    exact ⟨i, value, hi, hv, rfl⟩
  · intro hs
    obtain ⟨i, value, hi, hv, hc⟩ := hs
    exact ⟨value, i, hi, c.1, hv, Prod.ext rfl hc.symm⟩

/-- There is a corner for each objective, in order. -/
theorem cornersOver_eq (point : List α) (originating : Option Nat) :
    cornersOver point originating = point.zipIdx.map fun e =>
      (⟨Facet.unitVector point.length e.2, e.1,
        FacetId.insert point.length ((List.range point.length).filter (· ≠ e.2)), none⟩,
        decide (originating ≠ some e.2)) := by
  rw [← List.filterMap_eq_map]
  refine List.filterMap_congr fun e he => ?_
  have hi : e.2 < point.length := by simpa using List.snd_lt_of_mem_zipIdx he
  simp [Vertex.corner?_eq_some hi]

theorem length_cornersOver (point : List α) (originating : Option Nat) :
    (cornersOver point originating).length = point.length := by
  simp [cornersOver_eq]

theorem getElem?_cornersOver {point : List α} {originating : Option Nat} {i : Nat}
    {c : Vertex α × Bool} (h : (cornersOver point originating)[i]? = some c) :
    ∃ value, Vertex.corner? i point.length value point.length = some c.1 := by
  rw [cornersOver_eq, List.getElem?_map, Option.map_eq_some_iff] at h
  obtain ⟨e, he, rfl⟩ := h
  obtain ⟨hi, rfl⟩ := List.getElem?_eq_some_iff.1 he
  rw [List.length_zipIdx] at hi
  exact ⟨point[i], by simp [Vertex.corner?_eq_some hi]⟩

theorem pairwise_cornersOver (point : List α) (originating : Option Nat) :
    (cornersOver point originating).Pairwise fun c d => c.1.isNeighbour d.1 := by
  refine List.pairwise_filterMap.2 ((pairwise_zipIdx point).imp ?_)
  intro a b hab c hc d hd
  obtain ⟨v, hv, hvc⟩ := Option.map_eq_some_iff.1 hc
  obtain ⟨w, hw, hwd⟩ := Option.map_eq_some_iff.1 hd
  subst hvc hwd
  exact Vertex.corner?_isNeighbour hab.ne hv hw

/-- No two corners have the same facets. -/
theorem facetSet_cornersOver_nodup (point : List α) (originating : Option Nat) :
    ((cornersOver point originating).map fun c => c.1.facetSet).Nodup := by
  have hpairs := pairwise_cornersOver point originating
  refine List.pairwise_map.2 (hpairs.imp_of_mem ?_)
  intro c d hc hd hneighbour heq
  obtain ⟨i, value, -, hv, -⟩ := mem_cornersOver.1 hc
  obtain ⟨k, value', -, hw, -⟩ := mem_cornersOver.1 hd
  have hshape := Vertex.corner?_isShaped hv
  rw [Vertex.isNeighbour_iff hshape (Vertex.corner?_isShaped hw), ← heq, Finset.inter_self,
    hshape.card_facetSet] at hneighbour
  omega

/-- Each node stands for a corner over an entry of the point, and is untested unless the corner is
the originating one. -/
theorem Clique.exists_corner {nodes : List NodeKey} {origin : NodeKey → Vertex α × Bool}
    {point : List α} {originating : Option Nat} {v : Vertex α}
    (h : Clique m p bound nodes (cornersOver point originating) origin)
    (hv : m.vertex? n = some v) :
    ∃ i value w, point[i]? = some value ∧
      Vertex.corner? i point.length value point.length = some w ∧ v = { w with node := some n } ∧
      (n ∈ m.graph.untested ↔ originating ≠ some i) := by
  have hn : n ∈ nodes := h.mem_of_contains (Mesh.contains_of_vertex? hv)
  have hmem : origin n ∈ cornersOver point originating := h.map_origin ▸ List.mem_map_of_mem hn
  obtain ⟨i, value, hvalue, hcorner, huntested⟩ := mem_cornersOver.1 hmem
  refine ⟨i, value, (origin n).1, hvalue, hcorner,
    Option.some.inj (hv.symm.trans (h.vertex?_eq hn)), ?_⟩
  rw [h.mem_untested hn, huntested, decide_eq_true_iff]

theorem clique_cornerMesh (point : List α) (originating : Option Nat) :
    ∃ nodes origin, Clique (cornerMesh point point.length originating) point.length
      (point.length + 1) nodes (cornersOver point originating) origin := by
  refine clique_foldl _ (fun c hc => ?_) (pairwise_cornersOver point originating)
  obtain ⟨i, value, -, hv, -⟩ := mem_cornersOver.1 hc
  exact Vertex.corner?_isShaped hv

end Skeleton

end WeightPolyhedron
