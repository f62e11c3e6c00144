import WeightPolyhedron.Proofs.Alike
import WeightPolyhedron.Proofs.Stored

/-!
Cuts of meshes that differ in their stored vertices alone. Whatever becomes of the vertices of
discarded nodes, the same nodes stand for the same vertices, so that two cuts go through the same
steps, fail at the same one, and leave meshes that differ no more than before.
-/

namespace WeightPolyhedron

/-- Checks of two lists are the same if what is seen of the lists is, and the checks see no more. -/
theorem forM_congr_map {ε β γ : Type} {l l' : List β} {view : β → γ}
    {check check' : β → Except ε PUnit}
    (hl : l.map view = l'.map view) (hcheck : ∀ b b', view b = view b' → check b = check' b') :
    l.forM check = l'.forM check' := by
  induction l generalizing l' with
  | nil =>
    obtain rfl := List.map_eq_nil_iff.1 hl.symm
    rfl
  | cons b l ih =>
    obtain ⟨b', l', rfl, hb, hl⟩ := List.map_eq_cons_iff.1 hl.symm
    show (check b >>= fun _ => l.forM check) = check' b' >>= fun _ => l'.forM check'
    rw [hcheck b b' hb.symm, ih hl.symm]

namespace Mesh

variable {α : Type} {m m' : Mesh α} {r r' : Retention} {n k u : NodeKey} {v w : Vertex α}

/-- The meshes differ in the vertices that they store without a node, and in the keys of all
vertices. -/
structure Alike (r r' : Retention) (m m' : Mesh α) : Prop where
  graph : m.graph.Alike m'.graph
  vertex?_eq : ∀ n, m.vertex? n = m'.vertex? n
  filed : m.IsFiled r
  filed' : m'.IsFiled r'

namespace Alike

variable (h : m.Alike r r' m')

include h

theorem vertexAt_eq (n : NodeKey) : m.vertexAt n = m'.vertexAt n := by
  by_cases hn : m.graph.contains n
  · obtain ⟨_, v, -, -, -, hv⟩ := h.filed.linked.exists_key hn
    rw [vertexAt_eq_ok_iff.2 hv, vertexAt_eq_ok_iff.2 (h.vertex?_eq n ▸ hv)]
  · have hnone {m : Mesh α} (hn : ¬ m.graph.contains n) : m.graph.vertexOf? n = none := by
      rw [Graph.contains_iff] at hn
      exact Option.eq_none_iff_forall_ne_some.2 fun key hkey => hn ⟨key, hkey⟩
    have hn' : ¬ m'.graph.contains n := h.graph.contains_eq n ▸ hn
    simp [vertexAt, vertex?, hnone hn, hnone hn']

theorem unmark (nodes : List NodeKey) : (m.unmark nodes).Alike r r' (m'.unmark nodes) := by
  refine ⟨?_, fun n => by simp only [vertex?_unmark, h.vertex?_eq],
    h.filed.change (.unmark m nodes), h.filed'.change (.unmark m' nodes)⟩
  have hgraph := h.graph
  unfold Mesh.unmark
  generalize m.graph = g at hgraph ⊢
  generalize m'.graph = g' at hgraph ⊢
  induction nodes generalizing g g' with
  | nil => exact hgraph
  | cons n nodes ih => exact ih _ _ (hgraph.unmarkUntested n)

theorem attach (v : Vertex α) (b : Bool) : (m.attach v b).1 = (m'.attach v b).1 ∧
    (m.attach v b).2.Alike r r' (m'.attach v b).2 := by
  have hnext := h.graph.nodes.nextKey_eq
  refine ⟨by simp only [attach_fst, hnext], ?_, fun n => ?_, h.filed.attach v b,
    h.filed'.attach v b⟩
  · rw [attach_graph, attach_graph]
    exact h.graph.addNode ..
  · rw [h.filed.linked.vertex?_attach, h.filed'.linked.vertex?_attach, hnext, h.vertex?_eq]

theorem join (u v : NodeKey) : (m.join u v).Alike r r' (m'.join u v) :=
  ⟨h.graph.addEdge u v, fun n => by rw [vertex?_join, vertex?_join, h.vertex?_eq],
    h.filed.change (.join m u v), h.filed'.change (.join m' u v)⟩

theorem setVertex (hv : m.vertex? n = some v) (hnode : w.node = v.node) :
    (m.setVertex n w).Alike r r' (m'.setVertex n w) := by
  have hv' := h.vertex?_eq n ▸ hv
  refine ⟨by simpa only [setVertex_graph] using h.graph, fun k => ?_,
    h.filed.setVertex hv hnode, h.filed'.setVertex hv' hnode⟩
  rw [h.filed.linked.vertex?_setVertex (contains_of_vertex? hv),
    h.filed'.linked.vertex?_setVertex (contains_of_vertex? hv'), h.vertex?_eq]

theorem reopen (n : NodeKey) :
    (m.reopen n).1 = (m'.reopen n).1 ∧ (m.reopen n).2.Alike r r' (m'.reopen n).2 := by
  have hcleared := h.graph.clearEdges n
  obtain ⟨hopened, hmarked⟩ := hcleared.markUntested n
  refine ⟨?_, ?_, fun k => by rw [vertex?_reopen, vertex?_reopen, h.vertex?_eq],
    h.filed.change (.reopen m n), h.filed'.change (.reopen m' n)⟩
  · unfold Mesh.reopen
    simp only [hcleared.lastTaken_eq, hopened]
    split_ifs <;> rfl
  · rw [reopen_snd, reopen_snd]
    simp only [h.graph.lastTaken_eq]
    split_ifs
    exacts [hcleared, hmarked]

theorem joinPairs (nodes : List NodeKey) (pairs : List (Nat × Nat)) :
    (m.joinPairs nodes pairs).Alike r r' (m'.joinPairs nodes pairs) := by
  unfold Mesh.joinPairs
  induction pairs generalizing m m' with
  | nil => exact h
  | cons pair pairs ih =>
    obtain ⟨i, j⟩ := pair
    rw [List.foldl_cons, List.foldl_cons]
    cases hi : nodes[i]? <;> cases hj : nodes[j]? <;> simp only [hi, hj]
    case some.some x y => exact ih (h.join x y)
    all_goals exact ih h

theorem discard (n : NodeKey) : (m.discard r n).Alike r r' (m'.discard r' n) := by
  refine ⟨by simpa only [discard_graph] using h.graph.removeNode n, fun k => ?_,
    h.filed.discard n, h.filed'.discard n⟩
  rw [h.filed.linked.vertex?_discard, h.filed'.linked.vertex?_discard, h.vertex?_eq]

theorem discards (nodes : List NodeKey) : (nodes.foldl (·.discard r ·) m).Alike r r'
    (nodes.foldl (·.discard r' ·) m') := by
  induction nodes generalizing m m' with
  | nil => exact h
  | cons n nodes ih => exact ih (h.discard n)

theorem inspect {β : Type} {read : Mesh α → Except Error β} (hread : read m = read m') :
    EndAlike (inspect read) (inspect read) m m'
      (fun b s s' => read m = .ok b ∧ s = m ∧ s' = m') (Alike r r') := by
  unfold EndAlike Mesh.inspect
  rw [← hread]
  cases read m
  exacts [⟨rfl, h⟩, ⟨rfl, rfl, rfl, rfl⟩]

theorem derive (made : Except (Vertex.Error α) (Vertex α)) :
    EndAlike (derive made) (derive made) m m'
      (fun v s s' => made = .ok v ∧ s = m ∧ s' = m') (Alike r r') := by
  unfold EndAlike Mesh.derive
  cases made
  exacts [⟨rfl, h⟩, ⟨rfl, rfl, rfl, rfl⟩]

/-- The vertex of a node is read. -/
theorem inspect_vertexAt (n : NodeKey) :
    EndAlike (Mesh.inspect (·.vertexAt n)) (Mesh.inspect (·.vertexAt n)) m m'
      (fun v s s' => m.vertex? n = some v ∧ s = m ∧ s' = m') (Alike r r') :=
  (h.inspect (h.vertexAt_eq n)).mono fun _ _ _ hs => ⟨vertexAt_eq_ok_iff.1 hs.1, hs.2⟩

variable [Scalar α]

theorem sortNeighbors_eq (f : Facet α) (current : NodeKey) (nodes : List NodeKey)
    (state : List NodeKey × Region) :
    m.sortNeighbors f current nodes state = m'.sortNeighbors f current nodes state := by
  induction nodes generalizing state with
  | nil => rfl
  | cons n nodes ih => simp only [sortNeighbors, h.vertexAt_eq, ih]

theorem spread_eq (f : Facet α) (bound : Nat) (state : List NodeKey × Region) :
    m.spread f bound state = m'.spread f bound state := by
  induction bound generalizing state with
  | zero => rfl
  | succ bound ih =>
    obtain ⟨_ | ⟨current, queue⟩, region⟩ := state
    · rfl
    · simp only [spread, h.graph.neighbors_eq, h.sortNeighbors_eq, ih]

theorem violatedRegion_eq (f : Facet α) (seed : NodeKey) :
    m.violatedRegion f seed = m'.violatedRegion f seed := by
  have hsize : m.graph.size = m'.graph.size := h.graph.nodes.size_eq
  simp only [violatedRegion, h.graph.contains_eq, hsize, h.spread_eq]

omit h in
theorem splitEdge (id : FacetId) (f : Facet α) (e : NodeKey × NodeKey) (h : m.Alike r r' m') :
    EndAlike (splitEdge id f e) (splitEdge id f e) m m' (fun _ => Alike r r') (Alike r r') := by
  refine (h.inspect_vertexAt e.1).andThen ?_
  rintro v _ _ ⟨-, rfl, rfl⟩
  refine (h.inspect_vertexAt e.2).andThen ?_
  rintro w _ _ ⟨-, rfl, rfl⟩
  refine (h.derive _).andThen ?_
  rintro x s s' ⟨-, rfl, rfl⟩
  obtain ⟨hnode, hattached⟩ := h.attach x true
  refine .modifyGet hnode ?_
  show (Mesh.join _ _ _).Alike r r' (Mesh.join _ _ _)
  rw [hnode]
  exact hattached.join ..

omit h in
theorem settle (log : FacetLog α) (id : FacetId) (f : Facet α) (n : NodeKey)
    (h : m.Alike r r' m') :
    EndAlike (settle log id f n) (settle log id f n) m m' (fun _ => Alike r r') (Alike r r') := by
  refine (h.inspect_vertexAt n).andThen ?_
  rintro v _ _ ⟨hv, rfl, rfl⟩
  split_ifs
  · refine (h.derive _).andThen ?_
    rintro w s s' ⟨hw, rfl, rfl⟩
    obtain ⟨hopened, hreopened⟩ := (h.setVertex hv (Vertex.node_descend hw)).reopen n
    exact .modifyGet (congrArg (Cut.Fate.descended n) hopened) hreopened
  · exact .pure h

/-- Cuts end alike, whatever becomes of the vertices of discarded nodes. -/
theorem cut (log : FacetLog α) (id : FacetId) (f : Facet α) (seed : NodeKey) :
    EndAlike (cut log id f seed r) (cut log id f seed r') m m' (fun _ => Alike r r')
    (Alike r r') := by
  refine (h.inspect (h.violatedRegion_eq f seed)).andThen ?_
  rintro region _ _ ⟨-, rfl, rfl⟩
  refine .bind (.modify ?_)
  refine (EndAlike.mapM (fun e _ _ => splitEdge id f e) _ (h.unmark region.nodes)).andThen ?_
  intro created s s' hs
  refine (EndAlike.mapM (fun n _ _ => settle log id f n) _ hs).andThen fun fates s s' hs => ?_
  refine (EndAlike.mapM (R := Alike r r') (fun n t t' ht => ?_) _ hs).andThen
    fun vertices s s' hs => ?_
  · refine (ht.inspect_vertexAt n).mono ?_
    rintro _ _ _ ⟨-, rfl, rfl⟩
    exact ht
  · exact .bind (.modify (.bind (.modify (.pure ((hs.joinPairs ..).discards _)))))

omit [Scalar α] in
theorem located_eq : m.located = m'.located := by
  simp only [located, h.graph.nodes.keys_eq, h.vertex?_eq]

theorem findViolated_eq (f : Facet α) (tolerance : Tolerance α) :
    m.findViolated f tolerance = m'.findViolated f tolerance := by
  rw [findViolated, findViolated, h.located_eq]

omit [Scalar α]

theorem auditedVertex_eq (n : NodeKey) : m.auditedVertex n = m'.auditedVertex n := by
  rw [auditedVertex, auditedVertex, h.vertex?_eq]

/-- The key of a vertex plays no part in the audit of its node, as the vertex names the node. -/
theorem auditNode_eq (p : Nat) (n : NodeKey) {entry entry' : Node}
    (hentry : entry.neighbors = entry'.neighbors) :
    m.auditNode p n entry = m'.auditNode p n entry' := by
  unfold auditNode
  rw [← h.auditedVertex_eq n]
  cases hv : m.vertex? n with
  | none => simp [auditedVertex, hv, bind, Except.bind]
  | some v =>
    have hnode := h.filed.linked.node_eq hv
    simp only [auditedVertex, hv, hnode, hentry, h.graph.hasEdge_eq, bind, Except.bind]
    simp

theorem auditEdge_eq (p : Nat) (e : Edge) : m.auditEdge p e = m'.auditEdge p e := by
  simp only [auditEdge, h.auditedVertex_eq]

theorem forM_auditNode_eq (p : Nat) :
    (m.graph.nodes.entries.forM fun (n, entry) => m.auditNode p n entry) =
      m'.graph.nodes.entries.forM fun (n, entry) => m'.auditNode p n entry := by
  refine forM_congr_map h.graph.nodes.entries_map ?_
  rintro ⟨n, entry⟩ ⟨n', entry'⟩ heq
  obtain ⟨rfl, hentry⟩ := Prod.mk.inj heq
  exact h.auditNode_eq p n hentry

theorem auditStructure_eq (p : Nat) : m.auditStructure p = m'.auditStructure p := by
  have hedges : m.auditEdge p = m'.auditEdge p := funext (h.auditEdge_eq p)
  simp only [auditStructure, h.forM_auditNode_eq, hedges, h.graph.untested_eq, h.graph.edges_eq,
    h.graph.contains_eq]

theorem auditCompleteness_eq : m.auditCompleteness = m'.auditCompleteness := by
  simp only [auditCompleteness, h.graph.nodes.keys_eq, h.auditedVertex_eq, h.graph.hasEdge_eq]

theorem edgesAreAdjacent_eq : m.edgesAreAdjacent = m'.edgesAreAdjacent := by
  simp only [edgesAreAdjacent, h.graph.edges_eq, h.vertex?_eq]

theorem audit_eq (p : Nat) : m.audit p = m'.audit p := by
  rw [audit, audit, h.auditStructure_eq, h.auditCompleteness_eq]

end Alike

end Mesh

end WeightPolyhedron
