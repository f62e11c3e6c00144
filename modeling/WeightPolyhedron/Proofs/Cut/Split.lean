import WeightPolyhedron.Proofs.Outcome
import WeightPolyhedron.Proofs.Region

/-!
The first phase of a cut: each cut edge gets a new vertex, joined to the surviving end. All vertices
that were there stay as they are, so each edge is split where it was found.
-/

namespace WeightPolyhedron

namespace Mesh

variable {α : Type} {m s : Mesh α} {p bound : Nat} {id : FacetId} {f : Facet α}
  {n k u : NodeKey} {a b v w : Vertex α}

theorem ends_inspect_vertexAt {done : Vertex α → Mesh α → Prop}
    {failed : Cut.Error α → Mesh α → Prop} (hv : s.vertex? n = some v) (hdone : done v s) :
    Ends (inspect (·.vertexAt n)) s done failed := by
  simpa [Ends, inspect, vertexAt_eq_ok_iff.2 hv] using hdone

theorem ends_derive {made : Except (Vertex.Error α) (Vertex α)} {done : Vertex α → Mesh α → Prop}
    {failed : Cut.Error α → Mesh α → Prop} (hdone : ∀ w, made = .ok w → done w s)
    (hfailed : ∀ e, made = .error e → failed (.vertex e) s) : Ends (derive made) s done failed := by
  cases hmade : made with
  | ok w => simpa [Ends, derive] using hdone w hmade
  | error e => simpa [Ends, derive] using hfailed e hmade

variable [Scalar α]

def Separates (m : Mesh α) (f : Facet α) (e : NodeKey × NodeKey) : Prop :=
  ∀ a b, m.vertex? e.1 = some a → m.vertex? e.2 = some b → a.facetValue f < 0 ∧ 0 ≤ b.facetValue f

theorem splitEdge_ends {e : NodeKey × NodeKey} (ha : s.vertex? e.1 = some a)
    (hb : s.vertex? e.2 = some b) :
    Ends (splitEdge id f e) s
      (fun n s' => ∃ w, a.onEdge b id f = .ok w ∧ n = s.graph.nodes.nextKey ∧
        s' = (s.attach w true).2.join n e.2)
      (fun err s' => s' = s ∧ ¬ s.Separates f e ∧ ∃ cause, err = .vertex cause) := by
  refine .bind (ends_inspect_vertexAt ha (.bind (ends_inspect_vertexAt hb (.bind
    (ends_derive (fun w hw => ?_) fun err herr => ⟨rfl, fun hsep => ?_, err, rfl⟩)))))
  · exact .modifyGet ⟨w, hw, attach_fst s w true, rfl⟩
  · simp [Vertex.onEdge, hsep a b ha hb] at herr

end Mesh

section Origins

variable {γ : Type} {nodes : List NodeKey} {origin : NodeKey → γ} {n k : NodeKey} {c : γ}

theorem map_snoc_update (hn : n ∉ nodes) :
    (nodes ++ [n]).map (Function.update origin n c) = nodes.map origin ++ [c] := by
  rw [List.map_append, List.map_singleton, Function.update_self]
  congr 1
  apply List.map_congr_left
  intro k hk
  have hkn : k ≠ n := fun heq => hn (heq ▸ hk)
  exact Function.update_of_ne hkn ..

theorem mem_snoc_update {P : γ → Prop} (hn : n ∉ nodes) :
    k ∈ nodes ++ [n] ∧ P (Function.update origin n c k) ↔
      (k ∈ nodes ∧ P (origin k)) ∨ (k = n ∧ P c) := by
  by_cases hk : k = n
  · subst hk
    simp [hn]
  · simp [hk]

end Origins

namespace Cut

variable {α : Type} [Scalar α] {m s : Mesh α} {p : Nat} {id : FacetId} {f : Facet α}

/-- A mesh in which the given edges of another one were split. The origin of each new node is its
edge. -/
structure Split (m s : Mesh α) (p : Nat) (id : FacetId) (f : Facet α)
    (edges : List (NodeKey × NodeKey)) (created : List NodeKey)
    (origin : NodeKey → NodeKey × NodeKey) : Prop where
  sound : s.IsSound p (id + 1)
  map_origin : created.map origin = edges
  created_new : ∀ {n}, n ∈ created → ¬ m.graph.contains n
  created_vertex : ∀ {n}, n ∈ created → ∃ a b w, m.vertex? (origin n).1 = some a ∧
    m.vertex? (origin n).2 = some b ∧ a.onEdge b id f = .ok w ∧
    s.vertex? n = some { w with node := some n }
  vertex?_eq : ∀ {n}, n ∉ created → s.vertex? n = m.vertex? n
  mem_neighbors : ∀ {k u}, u ∈ s.graph.neighbors k ↔ u ∈ m.graph.neighbors k ∨
    (k ∈ created ∧ u = (origin k).2) ∨ (u ∈ created ∧ k = (origin u).2)
  mem_untested : ∀ {k}, k ∈ s.graph.untested ↔ k ∈ m.graph.untested ∨ k ∈ created
  lastTaken_eq : s.graph.lastTaken = m.graph.lastTaken

namespace Split

variable {edges : List (NodeKey × NodeKey)} {created : List NodeKey}
  {origin : NodeKey → NodeKey × NodeKey} {e : NodeKey × NodeKey} {a b w : Vertex α}
  {n k u : NodeKey}

theorem nil (hm : m.IsSound p id) : Split m m p id f [] [] fun n => (n, n) :=
  ⟨hm.mono (Nat.le_succ id), rfl, by simp, by simp, fun _ => rfl, by simp, by simp, rfl⟩

theorem contains_created (h : Split m s p id f edges created origin) (hk : k ∈ created) :
    s.graph.contains k := by
  obtain ⟨_, _, _, -, -, -, hv⟩ := h.created_vertex hk
  exact Mesh.contains_of_vertex? hv

theorem contains (h : Split m s p id f edges created origin) (hm : m.IsSound p id)
    (hk : m.graph.contains k) : s.graph.contains k := by
  obtain ⟨v, hv, -⟩ := hm.stored hk
  exact Mesh.contains_of_vertex? ((h.vertex?_eq fun hc => h.created_new hc hk).trans hv)

theorem nextKey_notMem (h : Split m s p id f edges created origin) :
    s.graph.nodes.nextKey ∉ created :=
  fun hc => s.graph.not_contains_nextKey (h.contains_created hc)

theorem vertex?_snoc (h : Split m s p id f edges created origin) (w : Vertex α) (u k : NodeKey) :
    ((s.attach w true).2.join s.graph.nodes.nextKey u).vertex? k =
      if k = s.graph.nodes.nextKey then some { w with node := some s.graph.nodes.nextKey }
      else s.vertex? k := by
  rw [Mesh.vertex?_join, h.sound.linked.vertex?_attach]

theorem sound_snoc (h : Split m s p id f edges created origin) (hm : m.IsSound p id)
    (hedge : e.2 ∈ m.graph.neighbors e.1) (ha : m.vertex? e.1 = some a)
    (hb : m.vertex? e.2 = some b) (hw : a.onEdge b id f = .ok w) :
    ((s.attach w true).2.join s.graph.nodes.nextKey e.2).IsSound p (id + 1) := by
  have hab := hm.adjacent hedge ha hb
  have hshape := Vertex.onEdge_isShaped hw (hm.isShaped ha) (hm.isShaped hb) hab
  have hold := Mesh.contains_of_vertex? hb
  have hne : e.2 ≠ s.graph.nodes.nextKey := fun heq =>
    s.graph.not_contains_nextKey (heq ▸ h.contains hm hold)
  apply (h.sound.attach hshape true).join
  intro x y hx hy
  rw [h.sound.linked.vertex?_attach, if_pos rfl] at hx
  rw [h.sound.linked.vertex?_attach, if_neg hne, h.vertex?_eq fun hc =>
    h.created_new hc hold, hb] at hy
  obtain rfl := Option.some.inj hx
  obtain rfl := Option.some.inj hy
  show w.isNeighbour b
  exact Vertex.onEdge_isNeighbour hw (hm.isShaped ha) (hm.isShaped hb) hab

theorem mem_neighbors_snoc (h : Split m s p id f edges created origin) (w : Vertex α)
    (hu : s.graph.contains e.2) {x : NodeKey} :
    x ∈ ((s.attach w true).2.join s.graph.nodes.nextKey e.2).graph.neighbors k ↔
      x ∈ m.graph.neighbors k ∨
        (k ∈ created ++ [s.graph.nodes.nextKey] ∧
          x = (Function.update origin s.graph.nodes.nextKey e k).2) ∨
        (x ∈ created ++ [s.graph.nodes.nextKey] ∧
          k = (Function.update origin s.graph.nodes.nextKey e x).2) := by
  have hadd (y z : NodeKey) : (y ∈ created ++ [s.graph.nodes.nextKey] ∧
      z = (Function.update origin s.graph.nodes.nextKey e y).2) ↔
        (y ∈ created ∧ z = (origin y).2) ∨ (y = s.graph.nodes.nextKey ∧ z = e.2) :=
    mem_snoc_update (P := fun o : NodeKey × NodeKey => z = o.2) h.nextKey_notMem
  rw [Mesh.mem_neighbors_attach_join w true hu, h.mem_neighbors, hadd, hadd]
  tauto

/-- One more edge is split. -/
theorem snoc (h : Split m s p id f edges created origin) (hm : m.IsSound p id)
    (hedge : e.2 ∈ m.graph.neighbors e.1) (ha : m.vertex? e.1 = some a)
    (hb : m.vertex? e.2 = some b) (hw : a.onEdge b id f = .ok w) :
    Split m ((s.attach w true).2.join s.graph.nodes.nextKey e.2) p id f (edges ++ [e])
      (created ++ [s.graph.nodes.nextKey]) (Function.update origin s.graph.nodes.nextKey e) := by
  have hfresh {k} (hk : k ∈ created) : k ≠ s.graph.nodes.nextKey := fun heq =>
    h.nextKey_notMem (heq ▸ hk)
  refine ⟨h.sound_snoc hm hedge ha hb hw, ?_, ?_, ?_, ?_,
    h.mem_neighbors_snoc w (h.contains hm (Mesh.contains_of_vertex? hb)), ?_, ?_⟩
  · rw [map_snoc_update h.nextKey_notMem, h.map_origin]
  · intro k hk
    rcases List.mem_append.1 hk with hk | hk
    · exact h.created_new hk
    · rw [List.mem_singleton.1 hk]
      exact fun hc => s.graph.not_contains_nextKey (h.contains hm hc)
  · intro k hk
    rw [h.vertex?_snoc]
    rcases List.mem_append.1 hk with hk | hk
    · rw [if_neg (hfresh hk), Function.update_of_ne (hfresh hk)]
      exact h.created_vertex hk
    · obtain rfl := List.mem_singleton.1 hk
      rw [if_pos rfl, Function.update_self]
      exact ⟨a, b, w, ha, hb, hw, rfl⟩
  · intro k hk
    rw [List.mem_append, List.mem_singleton, not_or] at hk
    rw [h.vertex?_snoc, if_neg hk.2, h.vertex?_eq hk.1]
  · intro k
    rw [Mesh.join_graph, Graph.addEdge_untested, Mesh.attach_graph, Graph.mem_untested_addNode,
      h.mem_untested, List.mem_append, List.mem_singleton]
    simp only [true_and]
    tauto
  · rw [Mesh.join_graph, Graph.addEdge_lastTaken, Mesh.attach_graph, Graph.addNode_lastTaken,
      h.lastTaken_eq]

end Split

/-- All edges of a list are split, or one of them is not separated by the facet and gives no vertex,
and those before it are split. -/
theorem mapM_splitEdge_ends (hm : m.IsSound p id) {edges : List (NodeKey × NodeKey)}
    (hedges : ∀ e ∈ edges, e.2 ∈ m.graph.neighbors e.1) :
    Ends (edges.mapM (Mesh.splitEdge id f)) m
      (fun created s => ∃ origin, Split m s p id f edges created origin)
      (fun err s => (∃ front created origin, Split m s p id f front created origin) ∧
        (∃ e ∈ edges, ¬ m.Separates f e) ∧ ∃ cause, err = .vertex cause) := by
  refine .mapM (fun front created s => ∃ origin, Split m s p id f front created origin)
    ?_ ⟨_, .nil hm⟩
  intro front e back created s hl hall
  obtain ⟨origin, hs⟩ := hall
  have he : e ∈ edges := by simp [hl]
  have hedge := hedges e he
  have hc₁ := Graph.contains_of_mem_neighbors hedge
  have hc₂ := hm.simple.contains_neighbor hedge
  obtain ⟨a, ha, -⟩ := hm.stored hc₁
  obtain ⟨b, hb, -⟩ := hm.stored hc₂
  have hs₁ := hs.vertex?_eq fun hc => hs.created_new hc hc₁
  have hs₂ := hs.vertex?_eq fun hc => hs.created_new hc hc₂
  apply (Mesh.splitEdge_ends (hs₁.trans ha) (hs₂.trans hb)).mono
  · rintro n s' ⟨w, hw, rfl, rfl⟩
    exact ⟨_, hs.snoc hm hedge ha hb hw⟩
  · rintro err s' ⟨rfl, hsep, hcause⟩
    refine ⟨⟨_, _, _, hs⟩, ⟨e, he, fun hm' => hsep fun a' b' ha' hb' => ?_⟩, hcause⟩
    exact hm' a' b' (hs₁.symm.trans ha') (hs₂.symm.trans hb')

end Cut

end WeightPolyhedron
