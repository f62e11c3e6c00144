import WeightPolyhedron.Mesh.Audit
import WeightPolyhedron.Proofs.Graph.Edges
import WeightPolyhedron.Proofs.Mesh

/-!
The structural audit passes on every sound mesh, and the audit of completeness where all neighbours
are joined.
-/

namespace WeightPolyhedron

theorem forM_eq_ok_iff {ε β : Type} {l : List β} {check : β → Except ε PUnit} :
    l.forM check = .ok ⟨⟩ ↔ ∀ b ∈ l, check b = .ok ⟨⟩ := by
  induction l with
  | nil => simp [List.forM, pure, Except.pure]
  | cons b l ih =>
    rw [List.forall_mem_cons, ← ih]
    show (check b >>= fun _ => l.forM check) = .ok ⟨⟩ ↔ _
    cases h : check b with
    | ok _ => simp [bind, Except.bind]
    | error e => simp [bind, Except.bind]

/-- If every action on a list has a result of some kind, they all are collected. -/
theorem mapM_eq_ok {ε β γ : Type} {l : List β} {f : β → Except ε γ} {P : γ → Prop}
    (h : ∀ b ∈ l, ∃ c, f b = .ok c ∧ P c) : ∃ cs, l.mapM f = .ok cs ∧ ∀ c ∈ cs, P c := by
  induction l with
  | nil => exact ⟨[], rfl, by simp⟩
  | cons b l ih =>
    obtain ⟨c, hc, hPc⟩ := h b (List.mem_cons_self ..)
    obtain ⟨cs, hcs, hPcs⟩ := ih fun b hb => h b (List.mem_cons_of_mem _ hb)
    refine ⟨c :: cs, ?_, List.forall_mem_cons.2 ⟨hPc, hPcs⟩⟩
    rw [List.mapM_cons, hc, hcs]
    rfl

namespace Mesh

variable {α : Type} {m : Mesh α} {p bound : Nat}

theorem IsSound.auditNode_eq_ok (h : m.IsSound p bound) {n : NodeKey} {entry : Node}
    (hn : (n, entry) ∈ m.graph.nodes.entries) : m.auditNode p n entry = .ok () := by
  have hget := Arena.mem_entries.1 hn
  have hcontains : m.graph.contains n := by simp [Graph.contains, Arena.contains, hget]
  obtain ⟨v, hv, hnode, hshape⟩ := h.stored hcontains
  have hlisted : entry.neighbors.find? (fun other => !m.graph.hasEdge other n) = none := by
    rw [List.find?_eq_none]
    intro u hu
    have hmem : u ∈ m.graph.neighbors n := by simpa [Graph.neighbors, hget] using hu
    simpa [Graph.hasEdge] using h.simple.symm hmem
  simp [auditNode, auditedVertex, hv, hnode, hshape.facets_length, hlisted, bind, Except.bind, pure,
    Except.pure]

theorem IsSound.auditEdge_eq_ok (h : m.IsSound p bound) {e : Edge} (he : e ∈ m.graph.edges) :
    m.auditEdge p e = .ok () := by
  have hmem := Graph.neighbor_of_mem_edges he
  obtain ⟨a, ha, -⟩ := h.stored (Graph.contains_of_mem_neighbors hmem)
  obtain ⟨b, hb, -⟩ := h.stored (h.simple.contains_neighbor hmem)
  have hab := h.adjacent hmem ha hb
  simp [auditEdge, auditedVertex, ha, hb, hab, bind, Except.bind, pure, Except.pure]

theorem IsSound.auditStructure_eq_ok (h : m.IsSound p bound) : m.auditStructure p = .ok () := by
  have hnodes : (m.graph.nodes.entries.forM fun e => m.auditNode p e.1 e.2) = .ok ⟨⟩ :=
    forM_eq_ok_iff.2 fun _ hn => h.auditNode_eq_ok hn
  have huntested : m.graph.untested.find? (fun n => !m.graph.contains n) = none := by
    rw [List.find?_eq_none]
    intro n hn
    simpa using h.simple.untested_contains hn
  have hedges : m.graph.edges.forM (m.auditEdge p) = .ok ⟨⟩ :=
    forM_eq_ok_iff.2 fun _ he => h.auditEdge_eq_ok he
  simp [auditStructure, hnodes, huntested, hedges, bind, Except.bind]

/-- Where all neighbours are joined, no edge is missing. -/
theorem IsSound.auditCompleteness_eq_ok (h : m.IsSound p bound)
    (hcomplete : ∀ {n u v w}, m.vertex? n = some v → m.vertex? u = some w → v.isNeighbour w →
      u ∈ m.graph.neighbors n) : m.auditCompleteness = .ok () := by
  have hread : ∀ n ∈ m.graph.nodes.keys, ∃ e : NodeKey × Vertex α,
      (m.auditedVertex n).map (fun v => (n, v)) = .ok e ∧ m.vertex? e.1 = some e.2 := by
    intro n hn
    obtain ⟨v, hv, -⟩ := h.stored (Arena.mem_keys.1 hn)
    exact ⟨(n, v), by simp [auditedVertex, hv, Except.map], hv⟩
  obtain ⟨nodes, hnodes, hvertex⟩ := mapM_eq_ok hread
  simp only [auditCompleteness, hnodes, bind, Except.bind]
  apply forM_eq_ok_iff.2
  rintro ⟨⟨v, b⟩, j⟩ hv
  have hb := hvertex _ (List.fst_mem_of_mem_zipIdx hv)
  have hnone : (nodes.take j).find?
      (fun e => e.2.isNeighbour b && !m.graph.hasEdge e.1 v) = none := by
    rw [List.find?_eq_none]
    rintro ⟨u, a⟩ hu hmissing
    have ha := hvertex _ (List.mem_of_mem_take hu)
    simp only [Bool.and_eq_true, Bool.not_eq_true'] at hmissing
    have hlisted : m.graph.hasEdge u v = true := by
      simpa [Graph.hasEdge] using hcomplete ha hb hmissing.1
    rw [hlisted] at hmissing
    cases hmissing.2
  simp only [hnone]
  rfl

end Mesh

end WeightPolyhedron
