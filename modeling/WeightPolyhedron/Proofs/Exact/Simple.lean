import WeightPolyhedron.Proofs.Exact.Skeleton

/-!
The graph of an exact skeleton is that of a simple polyhedron: its edges are exactly the pairs of
vertices with all facets but one in common, no such line of facets holds a third vertex, and each
vertex has as many neighbours as there are objectives, less one where its last edge is vertical.
-/

namespace WeightPolyhedron

open Arrangement

namespace Mesh

variable {m : Mesh ℚ} {log : FacetLog ℚ} {p : Nat} {n u k : NodeKey} {v w x : Vertex ℚ}

/-- The nodes are those of a simple arrangement in which the facets of the log are moved. -/
theorem IsExact.exists_isSimple (h : m.IsExact log p) :
    ∃ (δ : ℕ → ℚ) (place : NodeKey → Space p),
      ((log.arrangement p).shifted δ).IsSimple p log.size m.nodeSet m.facetsAt place := by
  obtain ⟨shift, place, hres⟩ := h.resolved
  obtain ⟨t, ht⟩ := hres.simple.exists
  exact ⟨_, _, ht⟩

theorem adjacent_iff (hv : m.vertex? n = some v) (hw : m.vertex? u = some w) :
    Adjacent p m.facetsAt n u ↔ (v.facetSet ∩ w.facetSet).card + 1 = p := by
  rw [Adjacent, facetsAt_eq hv, facetsAt_eq hw]

theorem IsExact.mem_neighbors_iff (h : m.IsExact log p) (hm : m.IsSound p log.size)
    (hv : m.vertex? n = some v) (hw : m.vertex? u = some w) :
    u ∈ m.graph.neighbors n ↔ (v.facetSet ∩ w.facetSet).card + 1 = p := by
  constructor
  · intro hu
    exact (Vertex.isNeighbour_iff (hm.isShaped hv) (hm.isShaped hw)).1 (hm.adjacent hu hv hw)
  · intro hcard
    exact h.complete (contains_of_vertex? hv) (contains_of_vertex? hw)
      ((adjacent_iff hv hw).2 hcard)

theorem IsExact.audit_eq_ok (h : m.IsExact log p) (hm : m.IsSound p log.size) :
    m.audit p = .ok () := by
  have hcomplete : m.auditCompleteness = .ok () := by
    apply hm.auditCompleteness_eq_ok
    intro n u v w hv hw hvw
    rw [h.mem_neighbors_iff hm hv hw]
    exact (Vertex.isNeighbour_iff (hm.isShaped hv) (hm.isShaped hw)).1 hvw
  simp [audit, hm.auditStructure_eq_ok, hcomplete, bind, Except.bind]

theorem IsExact.eq_of_facetSet (h : m.IsExact log p) (hv : m.vertex? n = some v)
    (hw : m.vertex? u = some w) (hvw : v.facetSet = w.facetSet) : n = u := by
  obtain ⟨δ, place, hsimple⟩ := h.exists_isSimple
  refine hsimple.inj (contains_of_vertex? hv) (contains_of_vertex? hw) ?_
  rw [facetsAt_eq hv, facetsAt_eq hw, hvw]

/-- No line holds three vertices. -/
theorem IsExact.eq_of_line (h : m.IsExact log p) {G : Finset FacetId} (hG : G.card + 1 = p)
    (hv : m.vertex? n = some v) (hw : m.vertex? u = some w) (hx : m.vertex? k = some x)
    (hGv : G ⊆ v.facetSet) (hGw : G ⊆ w.facetSet) (hGx : G ⊆ x.facetSet) :
    n = u ∨ k = n ∨ k = u := by
  obtain ⟨δ, place, hsimple⟩ := h.exists_isSimple
  by_cases hnu : n = u
  · exact .inl hnu
  · right
    rw [← facetsAt_eq hv] at hGv
    rw [← facetsAt_eq hw] at hGw
    rw [← facetsAt_eq hx] at hGx
    exact hsimple.eq_or_eq_of_subset hG (contains_of_vertex? hv) (contains_of_vertex? hw)
      (contains_of_vertex? hx) hGv hGw hGx hnu

theorem IsExact.length_neighbors (h : m.IsExact log p) (hm : m.IsSound p log.size)
    (hv : m.vertex? n = some v) :
    (m.graph.neighbors n).length = if v.hasVerticalEdge log then p - 1 else p := by
  obtain ⟨δ, place, hsimple⟩ := h.exists_isSimple
  have hmem (u : NodeKey) :
      u ∈ m.graph.neighbors n ↔ u ∈ m.nodeSet ∧ Adjacent p m.facetsAt n u := by
    constructor
    · intro hu
      obtain ⟨w, hw, -⟩ := hm.stored (hm.simple.contains_neighbor hu)
      exact ⟨contains_of_vertex? hw,
        (adjacent_iff hv hw).2 ((h.mem_neighbors_iff hm hv hw).1 hu)⟩
    · intro hu
      exact h.complete (contains_of_vertex? hv) hu.1 hu.2
  rw [hsimple.length_neighbors (contains_of_vertex? hv) (hm.simple.nodup n) hmem, facetsAt_eq hv]
  simp only [Vertex.hasVerticalEdge_iff (hm.isShaped hv)]
  rfl

end Mesh

namespace Skeleton

variable {s : Skeleton ℚ} {objectives : Nat} {point : List ℚ} {originating : Option Nat}
  {rays : List (List ℚ)} {settings : Settings ℚ}

/-- After any history of requests both audits find nothing: two vertices are joined just if they
have all facets but one in common. No two vertices have the same facets, no three have all facets
but one in common, and each vertex has as many neighbours as there are objectives, less one on a
vertical edge. -/
theorem simple_after_build (h : build objectives point originating rays settings = .ok s)
    (hmargin : 0 ≤ settings.epsilon) (requests : List (Request ℚ)) :
    let t := s.after requests
    let g := t.mesh.graph
    t.validate = .ok () ∧ (∀ n, g.contains n ↔ ∃ v, t.mesh.vertex? n = some v) ∧
      (∀ n u v w, t.mesh.vertex? n = some v → t.mesh.vertex? u = some w →
        (u ∈ g.neighbors n ↔ (v.facetSet ∩ w.facetSet).card + 1 = objectives) ∧
          (v.facetSet = w.facetSet → n = u)) ∧
      (∀ G : Finset FacetId, G.card + 1 = objectives → ∀ n u k v w x, t.mesh.vertex? n = some v →
        t.mesh.vertex? u = some w → t.mesh.vertex? k = some x → G ⊆ v.facetSet → G ⊆ w.facetSet →
          G ⊆ x.facetSet → n = u ∨ k = n ∨ k = u) ∧
      ∀ n v, t.mesh.vertex? n = some v → (g.neighbors n).Nodup ∧
        (g.neighbors n).length =
          if v.hasVerticalEdge t.log then objectives - 1 else objectives := by
  have ht := isExact_after h hmargin requests
  obtain ⟨-, hobj, -⟩ := isSound_after h requests
  intro t g
  have hmesh : t.mesh.IsSound objectives t.log.size := hobj ▸ ht.sound.mesh
  have hexact : t.mesh.IsExact t.log objectives := hobj ▸ ht.mesh
  refine ⟨?_, fun n => hmesh.contains_iff_vertex?, ?_, ?_, ?_⟩
  · exact ht.mesh.audit_eq_ok ht.sound.mesh
  · intro n u v w hv hw
    exact ⟨hexact.mem_neighbors_iff hmesh hv hw, hexact.eq_of_facetSet hv hw⟩
  · intro G hG n u k v w x hv hw hx hGv hGw hGx
    exact hexact.eq_of_line hG hv hw hx hGv hGw hGx
  · intro n v hv
    exact ⟨hmesh.simple.nodup n, hexact.length_neighbors hmesh hv⟩

theorem simple_after_two_reports : ∃ s : Skeleton ℚ,
    build 2 [3, 4] (some 0) [[1, -1]] ⟨0, true, .immediate⟩ = .ok s ∧
      (s.after [.nextWeight, .point [1, 6], .ray [-1, 2]]).validate = .ok () := by
  have hok : (build (α := ℚ) 2 [3, 4] (some 0) [[1, -1]] ⟨0, true, .immediate⟩).isOk := by
    decide +kernel
  cases hs : build (α := ℚ) 2 [3, 4] (some 0) [[1, -1]] ⟨0, true, .immediate⟩ with
  | error e => simp [hs, Except.isOk, Except.toBool] at hok
  | ok s => exact ⟨s, rfl, (simple_after_build hs le_rfl _).1⟩

end Skeleton

end WeightPolyhedron
