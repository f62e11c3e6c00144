import WeightPolyhedron.Proofs.Cut.Effect

/-!
Where the vertices of a mesh come from that a cut leaves, whether it succeeds or fails: a vertex was
there before, or it was lowered onto the facet, or it was made between two vertices that were there.
A node only leaves by a cut that succeeds.
-/

namespace WeightPolyhedron

namespace Cut

variable {α : Type} [Scalar α] {m m' s : Mesh α} {p : Nat} {id : FacetId} {f : Facet α}
  {log : FacetLog α} {r : Region} {created : List NodeKey} {origin : NodeKey → NodeKey × NodeKey}
  {n seed : NodeKey} {v : Vertex α}

inductive Source (m : Mesh α) (log : FacetLog α) (id : FacetId) (f : Facet α) (n : NodeKey) :
    Vertex α → Prop
  | kept {v : Vertex α} (stored : m.vertex? n = some v) : Source m log id f n v
  | lowered {u v : Vertex α} (stored : m.vertex? n = some u) (kind : f.kind = .point)
    (made : u.descend id f log = .ok v) : Source m log id f n v
  | split {k j : NodeKey} {a b w : Vertex α} (new : ¬ m.graph.contains n)
    (violated : m.vertex? k = some a) (surviving : m.vertex? j = some b)
    (made : a.onEdge b id f = .ok w) : Source m log id f n { w with node := some n }

/-- What a cut leaves of the nodes of a mesh. Lowered vertices stay, and so does all that the region
does not contain. -/
structure Leaves (m m' : Mesh α) (p : Nat) (log : FacetLog α) (id : FacetId) (f : Facet α)
    (r : Region) : Prop where
  sound : m'.IsSound p (id + 1)
  source : ∀ {n v}, m'.vertex? n = some v → Source m log id f n v
  removed : ∀ {n}, m.graph.contains n → ¬ m'.graph.contains n → n ∈ r.nodes ∧ ¬ m.Lowers log f n

theorem Split.source {edges : List (NodeKey × NodeKey)} {unmarked : List NodeKey}
    (h : Split (m.unmark unmarked) s p id f edges created origin) (hv : s.vertex? n = some v) :
    m.vertex? n = some v ∨ (¬ m.graph.contains n ∧ Source m log id f n v) := by
  by_cases hn : n ∈ created
  · have hnew : ¬ m.graph.contains n := by simpa using h.created_new hn
    obtain ⟨a, b, w, ha, hb, hw, hv'⟩ := h.created_vertex hn
    rw [Mesh.vertex?_unmark] at ha hb
    obtain rfl := Option.some.inj (hv'.symm.trans hv)
    exact .inr ⟨hnew, .split hnew ha hb hw⟩
  · exact .inl (by rwa [h.vertex?_eq hn, Mesh.vertex?_unmark] at hv)

theorem Effect.source (h : Effect m m' p log id f r created origin) (hv : m'.vertex? n = some v) :
    Source m log id f n v := by
  by_cases hc : n ∈ created
  · obtain ⟨a, b, w, ha, hb, hw, hv'⟩ := h.created_vertex hc
    obtain rfl := Option.some.inj (hv'.symm.trans hv)
    exact .split (h.created_new hc) ha hb hw
  by_cases hr : n ∈ r.nodes
  · by_cases hl : m.Lowers log f n
    · obtain ⟨u, w, hu, hw, hv'⟩ := h.lowered_vertex hr hl
      obtain ⟨-, -, hkind, -⟩ := hl
      obtain rfl := Option.some.inj (hv'.symm.trans hv)
      exact .lowered hu hkind hw
    · rw [h.removed hr hl] at hv
      cases hv
  · exact .kept (h.kept hr hc ▸ hv)

theorem Effect.leaves (h : Effect m m' p log id f r created origin) (hm : m.IsSound p id) :
    Leaves m m' p log id f r := by
  refine ⟨h.sound, h.source, fun {n} hn hn' => ?_⟩
  rw [h.contains_iff hm, not_or] at hn'
  have hr : n ∈ r.nodes := by
    by_contra hr
    exact hn'.1 ⟨hn, hr⟩
  exact ⟨hr, fun hl => hn'.2 (.inr ⟨hr, hl⟩)⟩

/-- A cut that fails has removed no node yet. -/
theorem Halted.leaves (h : Halted m m' p log id f) (hm : m.IsSound p id) :
    Leaves m m' p log id f ⟨[], []⟩ := by
  obtain ⟨unmarked, edges, created, origin, s, nodes, fates, hsplit, hsettled, hold⟩ := h
  have hcontains (n : NodeKey) : (m.unmark unmarked).graph.contains n ↔ m.graph.contains n := by
    simp
  refine ⟨hsettled.sound, ?_, ?_⟩
  · intro n v hv
    by_cases hn : n ∈ nodes ∧ s.Lowers log f n
    · obtain ⟨u, w, hu, hw, hv'⟩ := hsettled.lowered_vertex hn.1 hn.2
      obtain ⟨-, -, hkind, -⟩ := hn.2
      obtain rfl := Option.some.inj (hv'.symm.trans hv)
      have hsource : m.vertex? n = some u ∨ ¬ m.graph.contains n ∧ Source m log id f n u :=
        hsplit.source hu
      rcases hsource with hu | ⟨hnew, -⟩
      exacts [.lowered hu hkind hw, absurd (hold n hn.1) hnew]
    · rw [hsettled.vertex?_eq hn] at hv
      rcases hsplit.source hv with hv | ⟨-, hsource⟩
      exacts [.kept hv, hsource]
  · intro n hn hn'
    have hs : s.graph.contains n :=
      hsplit.contains (hm.unmark unmarked) ((hcontains n).2 hn)
    obtain ⟨u, hu, -⟩ := hsplit.sound.stored hs
    refine absurd ?_ hn'
    by_cases hl : n ∈ nodes ∧ s.Lowers log f n
    · obtain ⟨-, w, -, -, hw⟩ := hsettled.lowered_vertex hl.1 hl.2
      exact Mesh.contains_of_vertex? hw
    · exact Mesh.contains_of_vertex? ((hsettled.vertex?_eq hl).trans hu)

/-- What a cut leaves of a sound mesh: only the nodes of its region may go, and none if it fails. -/
theorem cut_leaves (log : FacetLog α) (f : Facet α) (seed : NodeKey) (hm : m.IsSound p id)
    (retention : Retention) :
    Ends (Mesh.cut log id f seed retention) m
      (fun _ m' => ∃ r, m.violatedRegion f seed = .ok r ∧ Leaves m m' p log id f r)
      (fun _ m' => Leaves m m' p log id f ⟨[], []⟩) := by
  refine (cut_phases log f seed hm retention).mono (fun _ m' hs => ?_) fun _ m' hs => hs.1.leaves hm
  obtain ⟨r, created, origin, s₁, s₂, s₃, fates, hregion, hphases, -⟩ := hs
  exact ⟨r, hregion, hphases.effect.leaves hm⟩

end Cut

end WeightPolyhedron
