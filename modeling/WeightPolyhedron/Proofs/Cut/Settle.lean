import WeightPolyhedron.Proofs.Cut.Split

/-!
The second phase of a cut: under a point facet the violated vertices on a vertical edge descend and
lose their edges, and all other violated nodes are marked out for removal.
-/

namespace WeightPolyhedron

variable {α : Type} {m s : Mesh α} {p : Nat} {id : FacetId} {f : Facet α} {log : FacetLog α}
  {n k u : NodeKey} {v w : Vertex α}

def Mesh.Lowers (m : Mesh α) (log : FacetLog α) (f : Facet α) (n : NodeKey) : Prop :=
  ∃ v, m.vertex? n = some v ∧ f.kind = .point ∧ v.hasVerticalEdge log

theorem Mesh.lowers_iff (hv : m.vertex? n = some v) :
    m.Lowers log f n ↔ f.kind = .point ∧ v.hasVerticalEdge log := by
  simp [Mesh.Lowers, hv]

open Classical in
/-- How many of the given nodes are lowered while another node, or none, was handed out last. -/
noncomputable def Mesh.loweredCount (m : Mesh α) (log : FacetLog α) (f : Facet α)
    (nodes : List NodeKey) : Nat :=
  nodes.countP fun n => decide (m.Lowers log f n ∧ m.graph.lastTaken ≠ some n)

theorem Mesh.loweredCount_snoc {nodes : List NodeKey} : m.loweredCount log f (nodes ++ [n]) =
    m.loweredCount log f nodes + m.loweredCount log f [n] :=
  List.countP_append

variable [Scalar α]

def Mesh.Hangs (m : Mesh α) (log : FacetLog α) (id : FacetId) (f : Facet α) (n : NodeKey) : Prop :=
  ∃ v e, m.vertex? n = some v ∧ f.kind = .point ∧ v.hasVerticalEdge log ∧
    v.descend id f log = .error e

theorem Mesh.settle_ends (hv : s.vertex? n = some v) :
    Ends (settle log id f n) s
      (fun fate s' =>
        (s.Lowers log f n ∧ ∃ w, v.descend id f log = .ok w ∧
          fate = .descended n ((s.setVertex n w).reopen n).1 ∧
          s' = ((s.setVertex n w).reopen n).2) ∨
        (¬ s.Lowers log f n ∧ fate = .removed n ∧ s' = s))
      (fun err s' => s' = s ∧ s.Hangs log id f n ∧ ∃ cause, err = .vertex cause) := by
  refine .bind (ends_inspect_vertexAt hv ?_)
  have hlowers : s.Lowers log f n ↔ _ := lowers_iff hv
  split_ifs with h
  · refine .bind (ends_derive (fun w hw => ?_) fun e he =>
      ⟨rfl, ⟨v, e, hv, h.1, h.2, he⟩, e, rfl⟩)
    exact .modifyGet (.inl ⟨hlowers.2 h, w, hw, rfl, rfl⟩)
  · exact .pure (.inr ⟨fun hl => h (hlowers.1 hl), rfl, rfl⟩)

namespace Cut

structure Settled (m s : Mesh α) (p : Nat) (log : FacetLog α) (id : FacetId) (f : Facet α)
    (nodes : List NodeKey) (fates : List Fate) : Prop where
  sound : s.IsSound p (id + 1)
  mem_staying : ∀ {n}, n ∈ fates.filterMap (·.staying?) ↔ n ∈ nodes ∧ m.Lowers log f n
  mem_leaving : ∀ {n}, n ∈ fates.filterMap (·.leaving?) ↔ n ∈ nodes ∧ ¬ m.Lowers log f n
  lowered_vertex : ∀ {n}, n ∈ nodes → m.Lowers log f n → ∃ v w, m.vertex? n = some v ∧
    v.descend id f log = .ok w ∧ s.vertex? n = some w
  vertex?_eq : ∀ {n}, ¬ (n ∈ nodes ∧ m.Lowers log f n) → s.vertex? n = m.vertex? n
  mem_neighbors : ∀ {k u}, u ∈ s.graph.neighbors k ↔ u ∈ m.graph.neighbors k ∧
    ¬ (k ∈ nodes ∧ m.Lowers log f k) ∧ ¬ (u ∈ nodes ∧ m.Lowers log f u)
  mem_untested : ∀ {k}, k ∈ s.graph.untested ↔ k ∈ m.graph.untested ∨
    ((k ∈ nodes ∧ m.Lowers log f k) ∧ m.graph.lastTaken ≠ some k)
  lastTaken_eq : s.graph.lastTaken = m.graph.lastTaken
  countP_isOpened : (∀ n ∈ nodes, n ∉ m.graph.untested) →
    fates.countP (·.isOpened) = m.loweredCount log f nodes

variable {nodes : List NodeKey} {fates : List Fate}

theorem mem_snoc_and {P : NodeKey → Prop} :
    k ∈ nodes ++ [n] ∧ P k ↔ (k ∈ nodes ∧ P k) ∨ (k = n ∧ P n) := by
  rw [List.mem_append, List.mem_singleton, or_and_right]
  apply or_congr_right
  exact and_congr_right fun heq => heq ▸ Iff.rfl

theorem Settled.nil (hm : m.IsSound p (id + 1)) : Settled m m p log id f [] [] :=
  ⟨hm, by simp, by simp, by simp, fun _ => rfl, by simp, by simp, rfl, fun _ => rfl⟩

theorem Settled.snoc_removed (h : Settled m s p log id f nodes fates)
    (hn : ¬ m.Lowers log f n) : Settled m s p log id f (nodes ++ [n]) (fates ++ [.removed n]) := by
  have hiff {k} : (k ∈ nodes ++ [n] ∧ m.Lowers log f k) ↔ (k ∈ nodes ∧ m.Lowers log f k) := by
    simp only [mem_snoc_and, hn, and_false, or_false]
  refine ⟨h.sound, ?_, ?_, ?_, ?_, ?_, ?_, h.lastTaken_eq, ?_⟩
  · intro k
    rw [hiff, ← h.mem_staying]
    simp [Fate.staying?]
  · intro k
    rw [mem_snoc_and (P := fun k => ¬ m.Lowers log f k), ← h.mem_leaving]
    simp [Fate.leaving?, hn]
  · intro k hk hl
    exact h.lowered_vertex (hiff.1 ⟨hk, hl⟩).1 hl
  · intro k hk
    exact h.vertex?_eq fun hc => hk (hiff.2 hc)
  · intro k u
    rw [hiff, hiff, h.mem_neighbors]
  · intro k
    rw [hiff, h.mem_untested]
  · intro hunmarked
    rw [Mesh.loweredCount_snoc, List.countP_append,
      h.countP_isOpened fun k hk => hunmarked k (List.mem_append_left _ hk)]
    simp [Mesh.loweredCount, Fate.isOpened, hn]

theorem Settled.snoc_descended (h : Settled m s p log id f nodes fates) (hmem : n ∉ nodes)
    (hn : m.Lowers log f n) (hv : m.vertex? n = some v) (hshape : v.IsShaped p id)
    (hw : v.descend id f log = .ok w) :
    Settled m ((s.setVertex n w).reopen n).2 p log id f (nodes ++ [n])
      (fates ++ [.descended n ((s.setVertex n w).reopen n).1]) := by
  have hs : s.vertex? n = some v := (h.vertex?_eq fun hc => hmem hc.1).trans hv
  have hcontains := Mesh.contains_of_vertex? hs
  have hiff {k} : (k ∈ nodes ++ [n] ∧ m.Lowers log f k) ↔
      (k ∈ nodes ∧ m.Lowers log f k) ∨ k = n := by
    simp only [mem_snoc_and, hn, and_true]
  have hvertex (k) : ((s.setVertex n w).reopen n).2.vertex? k =
      if k = n then some w else s.vertex? k := by
    rw [Mesh.vertex?_reopen, h.sound.linked.vertex?_setVertex hcontains]
  have hnode : w.node = some n := (Vertex.node_descend hw).trans (h.sound.node_eq hs)
  refine ⟨h.sound.descend hcontains hnode (Vertex.descend_isShaped hw hshape), ?_, ?_, ?_, ?_,
    ?_, ?_, ?_, ?_⟩
  · intro k
    rw [hiff, ← h.mem_staying]
    simp [Fate.staying?]
  · intro k
    rw [mem_snoc_and (P := fun k => ¬ m.Lowers log f k), ← h.mem_leaving]
    simp [Fate.leaving?, hn]
  · intro k hk hl
    rw [hvertex]
    split_ifs with heq
    · exact ⟨v, w, heq ▸ hv, hw, rfl⟩
    · exact h.lowered_vertex ((hiff.1 ⟨hk, hl⟩).resolve_right heq).1 hl
  · intro k hk
    rw [hiff, not_or] at hk
    rw [hvertex, if_neg hk.2, h.vertex?_eq hk.1]
  · intro k u
    rw [hiff, hiff, not_or, not_or, Mesh.neighbors_reopen, Mesh.setVertex_graph,
      h.sound.simple.mem_neighbors_clearEdges, h.mem_neighbors]
    tauto
  · intro k
    rw [hiff, Mesh.mem_untested_reopen, Mesh.setVertex_graph, h.mem_untested, h.lastTaken_eq]
    by_cases heq : k = n
    · subst heq
      simp only [hcontains, true_and, or_true]
      tauto
    · simp only [heq, false_and, or_false]
  · rw [Mesh.reopen_lastTaken, Mesh.setVertex_graph, h.lastTaken_eq]
  · intro hunmarked
    have hn' : n ∉ s.graph.untested := by
      rw [h.mem_untested]
      exact fun hu => hu.elim (hunmarked n (by simp)) fun hu => hmem hu.1.1
    have hopened : ((s.setVertex n w).reopen n).1 ↔ m.graph.lastTaken ≠ some n := by
      rw [Mesh.reopen_fst, Mesh.setVertex_graph, h.lastTaken_eq]
      simp [hcontains, hn']
    rw [Mesh.loweredCount_snoc, List.countP_append,
      h.countP_isOpened fun k hk => hunmarked k (List.mem_append_left _ hk)]
    simp [Mesh.loweredCount, Fate.isOpened, hn, hopened, List.countP_cons]

/-- All nodes of a list are settled, or the vertex of one of them cannot descend, and those before
it are settled. -/
theorem mapM_settle_ends (hm : m.IsSound p (id + 1)) (hnodup : nodes.Nodup)
    (hnodes : ∀ n ∈ nodes, ∃ v, m.vertex? n = some v ∧ v.IsShaped p id) :
    Ends (nodes.mapM (Mesh.settle log id f)) m
      (fun fates s => Settled m s p log id f nodes fates)
      (fun err s => (∃ front fates, (∀ n ∈ front, n ∈ nodes) ∧ Settled m s p log id f front fates) ∧
        (∃ n ∈ nodes, m.Hangs log id f n) ∧ ∃ cause, err = .vertex cause) := by
  refine .mapM (fun front fates s => Settled m s p log id f front fates) ?_ (.nil hm)
  intro front n back fates s hl hs
  have hn : n ∈ nodes := by simp [hl]
  have hfront : n ∉ front := fun hf =>
    List.disjoint_of_nodup_append (hl ▸ hnodup) hf (List.mem_cons_self ..)
  obtain ⟨v, hv, hshape⟩ := hnodes n hn
  have hsv : s.vertex? n = some v := (hs.vertex?_eq fun hc => hfront hc.1).trans hv
  have hlowers : s.Lowers log f n ↔ m.Lowers log f n := by
    rw [Mesh.lowers_iff hsv, Mesh.lowers_iff hv]
  apply (Mesh.settle_ends hsv).mono
  · intro fate s' hfate
    rcases hfate with ⟨hl, w, hw, rfl, rfl⟩ | ⟨hl, rfl, rfl⟩
    · exact hs.snoc_descended hfront (hlowers.1 hl) hv hshape hw
    · exact hs.snoc_removed fun hc => hl (hlowers.2 hc)
  · intro err s' hfail
    obtain ⟨rfl, ⟨v', e, hv', hrest⟩, hcause⟩ := hfail
    have hold : ∀ k ∈ front, k ∈ nodes := fun k hk => hl ▸ List.mem_append_left _ hk
    exact ⟨⟨_, _, hold, hs⟩, ⟨n, hn, v', e, hv.trans (hsv.symm.trans hv'), hrest⟩, hcause⟩

end Cut

end WeightPolyhedron
