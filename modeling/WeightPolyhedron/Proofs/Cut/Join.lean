import WeightPolyhedron.Proofs.Cut.Settle

/-!
The last phases of a cut, which cannot fail: neighbours among the new and the lowered vertices are
joined, and the violated nodes that are left are discarded.
-/

namespace WeightPolyhedron

variable {α : Type} {m s : Mesh α} {p bound : Nat} {id : FacetId} {f : Facet α}
  {log : FacetLog α} {n k u seed : NodeKey} {v w a b : Vertex α}

theorem Vertex.mem_adjacentPairs {vs : List (Vertex α)} {i j : Nat} :
    (i, j) ∈ adjacentPairs vs ↔
      i < j ∧ ∃ a b, vs[i]? = some a ∧ vs[j]? = some b ∧ a.isNeighbour b := by
  simp only [adjacentPairs, List.mem_flatMap, List.mem_filterMap, Prod.exists,
    List.mem_zipIdx_iff_getElem?, List.getElem?_take, Option.ite_none_right_eq_some,
    Option.some.injEq, Prod.mk.injEq]
  constructor
  · intro hs
    obtain ⟨b, j', hb, a, i', ⟨hlt, ha⟩, hab, hi, hj⟩ := hs
    subst hi hj
    exact ⟨hlt, a, b, ha, hb, hab⟩
  · intro hs
    obtain ⟨hlt, a, b, ha, hb, hab⟩ := hs
    exact ⟨b, j, hb, a, i, ⟨hlt, ha⟩, hab, rfl, rfl⟩

namespace Mesh

theorem IsSound.mem_neighbors_join (h : m.IsSound p bound) {x : NodeKey} (hne : n ≠ k)
    (hn : m.graph.contains n) (hk : m.graph.contains k) :
    x ∈ (m.join n k).graph.neighbors u ↔
      x ∈ m.graph.neighbors u ∨ (u = n ∧ x = k) ∨ (u = k ∧ x = n) := by
  rw [join_graph, Graph.mem_neighbors_addEdge, Graph.addEdge_fst_iff]
  by_cases hedge : k ∈ m.graph.neighbors n
  · constructor
    · exact fun hx => hx.imp_right And.right
    · intro hx
      rcases hx with hx | ⟨hu, hx⟩ | ⟨hu, hx⟩
      · exact .inl hx
      · exact .inl (hu ▸ hx ▸ hedge)
      · exact .inl (hu ▸ hx ▸ h.simple.symm hedge)
  · simp [hne, hn, hk, hedge]

/-- A vertex is no neighbour of itself. -/
theorem IsSound.ne_of_isNeighbour (h : m.IsSound p bound) (ha : m.vertex? n = some a)
    (hb : m.vertex? k = some b) (hab : a.isNeighbour b) : n ≠ k := by
  intro heq
  have hshape := h.isShaped ha
  rw [← heq, ha, Option.some.injEq] at hb
  have hcard := (Vertex.isNeighbour_iff hshape hshape).1 (hb ▸ hab)
  rw [Finset.inter_self, hshape.card_facetSet] at hcard
  omega

theorem joinPairs_cons (m : Mesh α) {nodes : List NodeKey} {i j : Nat} {pairs : List (Nat × Nat)}
    (hi : nodes[i]? = some n) (hj : nodes[j]? = some k) :
    m.joinPairs nodes ((i, j) :: pairs) = (m.join n k).joinPairs nodes pairs := by
  simp [joinPairs, hi, hj]

def NamesNeighbours (m : Mesh α) (nodes : List NodeKey) (pairs : List (Nat × Nat)) : Prop :=
  ∀ i j, (i, j) ∈ pairs → ∃ n k a b, nodes[i]? = some n ∧ nodes[j]? = some k ∧
    m.vertex? n = some a ∧ m.vertex? k = some b ∧ a.isNeighbour b

def Paired (nodes : List NodeKey) (pairs : List (Nat × Nat)) (k u : NodeKey) : Prop :=
  ∃ i j, (i, j) ∈ pairs ∧
    ((nodes[i]? = some k ∧ nodes[j]? = some u) ∨ (nodes[j]? = some k ∧ nodes[i]? = some u))

theorem paired_cons {nodes : List NodeKey} {i j : Nat} {pairs : List (Nat × Nat)} {x y : NodeKey}
    (hi : nodes[i]? = some n) (hj : nodes[j]? = some k) :
    Paired nodes ((i, j) :: pairs) y x ↔
      ((y = n ∧ x = k) ∨ (y = k ∧ x = n)) ∨ Paired nodes pairs y x := by
  simp only [Paired, List.mem_cons, Prod.mk.injEq]
  constructor
  · intro hx
    obtain ⟨i', j', hij, hx⟩ := hx
    rcases hij with ⟨hi', hj'⟩ | hij
    · subst hi' hj'
      rw [hi, hj] at hx
      simp only [Option.some.injEq] at hx
      exact .inl (hx.imp (And.imp Eq.symm Eq.symm) (And.imp Eq.symm Eq.symm))
    · exact .inr ⟨i', j', hij, hx⟩
  · intro hx
    rcases hx with (⟨hy, hx⟩ | ⟨hy, hx⟩) | ⟨i', j', hij, hx⟩
    · exact ⟨i, j, .inl ⟨rfl, rfl⟩, .inl ⟨hy ▸ hi, hx ▸ hj⟩⟩
    · exact ⟨i, j, .inl ⟨rfl, rfl⟩, .inr ⟨hy ▸ hj, hx ▸ hi⟩⟩
    · exact ⟨i', j', .inr hij, hx⟩

structure Joined (m s : Mesh α) (p bound : Nat) (Pair : NodeKey → NodeKey → Prop) : Prop where
  sound : s.IsSound p bound
  vertex?_eq : ∀ n, s.vertex? n = m.vertex? n
  mem_neighbors : ∀ {k u}, u ∈ s.graph.neighbors k ↔ u ∈ m.graph.neighbors k ∨ Pair k u
  untested_eq : s.graph.untested = m.graph.untested
  lastTaken_eq : s.graph.lastTaken = m.graph.lastTaken

theorem IsSound.joinPairs (h : m.IsSound p bound) {nodes : List NodeKey} (pairs : List (Nat × Nat))
    (hpairs : m.NamesNeighbours nodes pairs) :
    Joined m (m.joinPairs nodes pairs) p bound (Paired nodes pairs) := by
  induction pairs generalizing m with
  | nil => exact ⟨h, fun _ => rfl, by simp [Mesh.joinPairs, Paired], rfl, rfl⟩
  | cons pair pairs ih =>
    obtain ⟨i, j⟩ := pair
    obtain ⟨n, k, a, b, hi, hj, ha, hb, hab⟩ := hpairs i j (List.mem_cons_self ..)
    have hjoin : (m.join n k).IsSound p bound := h.join fun {x y} hx hy => by
      rw [ha, Option.some.injEq] at hx
      rw [hb, Option.some.injEq] at hy
      exact hx ▸ hy ▸ hab
    have hrest : (m.join n k).NamesNeighbours nodes pairs := fun i j hij => by
      simpa only [vertex?_join] using hpairs i j (List.mem_cons_of_mem _ hij)
    have ih := ih hjoin hrest
    rw [joinPairs_cons m hi hj]
    refine ⟨ih.sound, fun x => by rw [ih.vertex?_eq, vertex?_join], ?_, ?_, ?_⟩
    · intro y x
      rw [ih.mem_neighbors, h.mem_neighbors_join (h.ne_of_isNeighbour ha hb hab)
        (contains_of_vertex? ha) (contains_of_vertex? hb), paired_cons hi hj, or_assoc]
    · rw [ih.untested_eq, join_graph, Graph.addEdge_untested]
    · rw [ih.lastTaken_eq, join_graph, Graph.addEdge_lastTaken]

theorem mapM_vertexAt_ends {nodes : List NodeKey} (hnodes : ∀ n ∈ nodes, ∃ v, m.vertex? n = some v)
    {failed : Cut.Error α → Mesh α → Prop} :
    Ends (nodes.mapM fun n => inspect (·.vertexAt n)) m
      (fun vs s => s = m ∧ vs.map some = nodes.map m.vertex?) failed := by
  refine .mapM (fun front vs s => s = m ∧ vs.map some = front.map m.vertex?) ?_ ⟨rfl, rfl⟩
  intro front n back vs s hl hall
  obtain ⟨hs, hvs⟩ := hall
  obtain ⟨v, hv⟩ := hnodes n (by simp [hl])
  refine ends_inspect_vertexAt (hs ▸ hv) ⟨hs, ?_⟩
  simp [hvs, hv]

/-- What stands at a position of the vertices is the vertex of the node at that position. -/
theorem getElem?_eq_some_of_map {nodes : List NodeKey} {vs : List (Vertex α)}
    (hvs : vs.map some = nodes.map m.vertex?) (i : Nat) :
    vs[i]? = some a ↔ ∃ n, nodes[i]? = some n ∧ m.vertex? n = some a := by
  have heq := congrArg (fun l : List (Option (Vertex α)) => l[i]?) hvs
  simp only [List.getElem?_map] at heq
  cases hi : nodes[i]? with
  | none =>
    rw [hi, Option.map_none, Option.map_eq_none_iff] at heq
    simp [heq]
  | some n =>
    rw [hi, Option.map_some, Option.map_eq_some_iff] at heq
    obtain ⟨c, hc, hn⟩ := heq
    simp [hc, ← hn]

theorem namesNeighbours_adjacentPairs {nodes : List NodeKey} {vs : List (Vertex α)}
    (hvs : vs.map some = nodes.map m.vertex?) :
    m.NamesNeighbours nodes (Vertex.adjacentPairs vs) := by
  intro i j hij
  obtain ⟨-, a, b, ha, hb, hab⟩ := Vertex.mem_adjacentPairs.1 hij
  obtain ⟨n, hn, ha⟩ := (getElem?_eq_some_of_map hvs i).1 ha
  obtain ⟨k, hk, hb⟩ := (getElem?_eq_some_of_map hvs j).1 hb
  exact ⟨n, k, a, b, hn, hk, ha, hb, hab⟩

/-- The order of the positions does not matter, as being a neighbour is symmetric. -/
theorem IsSound.paired_adjacentPairs (h : m.IsSound p bound) {nodes : List NodeKey}
    {vs : List (Vertex α)} (hvs : vs.map some = nodes.map m.vertex?) :
    Paired nodes (Vertex.adjacentPairs vs) k u ↔ k ∈ nodes ∧ u ∈ nodes ∧
      ∃ a b, m.vertex? k = some a ∧ m.vertex? u = some b ∧ a.isNeighbour b := by
  constructor
  · intro hs
    obtain ⟨i, j, hij, hku⟩ := hs
    obtain ⟨n, n', a, b, hn, hn', ha, hb, hab⟩ := namesNeighbours_adjacentPairs hvs i j hij
    rw [hn, hn', Option.some.injEq, Option.some.injEq, Option.some.injEq, Option.some.injEq] at hku
    rcases hku with ⟨rfl, rfl⟩ | ⟨rfl, rfl⟩
    · exact ⟨List.mem_of_getElem? hn, List.mem_of_getElem? hn', a, b, ha, hb, hab⟩
    · exact ⟨List.mem_of_getElem? hn', List.mem_of_getElem? hn, b, a, hb, ha,
        (Vertex.isNeighbour_comm (h.isShaped ha) (h.isShaped hb)).1 hab⟩
  · intro hs
    obtain ⟨hk, hu, a, b, ha, hb, hab⟩ := hs
    obtain ⟨i, hi⟩ := List.mem_iff_getElem?.1 hk
    obtain ⟨j, hj⟩ := List.mem_iff_getElem?.1 hu
    have hva := (getElem?_eq_some_of_map hvs i).2 ⟨k, hi, ha⟩
    have hvb := (getElem?_eq_some_of_map hvs j).2 ⟨u, hj, hb⟩
    have hne : i ≠ j := by
      intro heq
      rw [heq, hj, Option.some.injEq] at hi
      exact h.ne_of_isNeighbour ha hb hab hi.symm
    rcases Nat.lt_or_gt_of_ne hne with hlt | hgt
    · exact ⟨i, j, Vertex.mem_adjacentPairs.2 ⟨hlt, a, b, hva, hvb, hab⟩, .inl ⟨hi, hj⟩⟩
    · have hba := (Vertex.isNeighbour_comm (h.isShaped ha) (h.isShaped hb)).1 hab
      exact ⟨j, i, Vertex.mem_adjacentPairs.2 ⟨hgt, b, a, hvb, hva, hba⟩, .inr ⟨hi, hj⟩⟩

/-- All neighbours among the given nodes are joined. -/
theorem IsSound.joinPairs_adjacentPairs (h : m.IsSound p bound) {nodes : List NodeKey}
    {vs : List (Vertex α)} (hvs : vs.map some = nodes.map m.vertex?) :
    Joined m (m.joinPairs nodes (Vertex.adjacentPairs vs)) p bound fun k u => k ∈ nodes ∧
      u ∈ nodes ∧ ∃ a b, m.vertex? k = some a ∧ m.vertex? u = some b ∧ a.isNeighbour b := by
  have hjoined := h.joinPairs _ (namesNeighbours_adjacentPairs hvs)
  exact { hjoined with
    mem_neighbors := fun {k u} => by rw [hjoined.mem_neighbors, h.paired_adjacentPairs hvs] }

structure Discarded (m s : Mesh α) (p bound : Nat) (nodes : List NodeKey) : Prop where
  sound : s.IsSound p bound
  vertex?_eq : ∀ n, s.vertex? n = if n ∈ nodes then none else m.vertex? n
  mem_neighbors : ∀ {k u}, u ∈ s.graph.neighbors k ↔
    u ∈ m.graph.neighbors k ∧ k ∉ nodes ∧ u ∉ nodes
  mem_untested : ∀ {k}, k ∈ s.graph.untested ↔ k ∈ m.graph.untested ∧ k ∉ nodes
  lastTaken_iff : ∀ {k}, s.graph.lastTaken = some k ↔ m.graph.lastTaken = some k ∧ k ∉ nodes

theorem IsSound.discarded_one (h : m.IsSound p bound) (retention : Retention) (n : NodeKey) :
    Discarded m (m.discard retention n) p bound [n] := by
  refine ⟨h.discard retention n, ?_, ?_, ?_, ?_⟩
  · intro k
    simp only [h.linked.vertex?_discard, List.mem_singleton]
  · intro k u
    simp only [discard_graph, h.simple.mem_neighbors_removeNode, List.mem_singleton]
  · intro k
    rw [discard_graph, List.mem_singleton]
    by_cases hn : m.graph.contains n
    · rw [Graph.untested_removeNode hn, h.simple.untested_nodup.mem_erase_iff, and_comm]
    · rw [Graph.removeNode_of_not_contains hn, iff_self_and]
      exact fun hk heq => hn (heq ▸ h.simple.untested_contains hk)
  · intro k
    rw [discard_graph, List.mem_singleton]
    by_cases hn : m.graph.contains n
    · rw [Graph.lastTaken_removeNode hn]
      split_ifs with hl
      · rw [hl]
        simp only [Option.some.injEq, false_iff, not_and, not_not]
        exact Eq.symm
      · rw [iff_self_and]
        exact fun hk heq => hl (heq ▸ hk)
    · rw [Graph.removeNode_of_not_contains hn, iff_self_and]
      exact fun hk heq => hn (heq ▸ h.simple.lastTaken_contains hk)

theorem IsSound.discarded (h : m.IsSound p bound) (retention : Retention) (nodes : List NodeKey) :
    Discarded m (nodes.foldl (·.discard retention ·) m) p bound nodes := by
  induction nodes generalizing m with
  | nil => exact ⟨h, by simp, by simp, by simp, by simp⟩
  | cons n nodes ih =>
    have hone := h.discarded_one retention n
    have ih := ih (h.discard retention n)
    refine ⟨ih.sound, ?_, ?_, ?_, ?_⟩
    · intro k
      rw [List.foldl_cons, ih.vertex?_eq, hone.vertex?_eq]
      by_cases hk : k = n <;> simp [hk]
    · intro k u
      rw [List.foldl_cons, ih.mem_neighbors, hone.mem_neighbors]
      simp only [List.mem_cons, List.not_mem_nil, or_false]
      tauto
    · intro k
      rw [List.foldl_cons, ih.mem_untested, hone.mem_untested]
      simp only [List.mem_cons, List.not_mem_nil, or_false]
      tauto
    · intro k
      rw [List.foldl_cons, ih.lastTaken_iff, hone.lastTaken_iff]
      simp only [List.mem_cons, List.not_mem_nil, or_false]
      tauto

end Mesh

end WeightPolyhedron
