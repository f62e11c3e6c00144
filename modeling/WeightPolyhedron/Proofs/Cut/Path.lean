import WeightPolyhedron.Proofs.Cut.Effect
import WeightPolyhedron.Proofs.Path

/-!
A point cuts a path. Each end of the piece that is cut away gives way to one node: a new one on the
edge to the rest of the path or, where the path ends there, the corner, which is lowered. The two
have the facet of the point in common and no other node has it, so that they close the gap.
-/

namespace WeightPolyhedron

variable {α : Type} [Scalar α] {m m' : Mesh α} {p : Nat} {id i j a b c : FacetId} {f : Facet α}
  {log : FacetLog α} {r : Region} {created : List NodeKey} {origin : NodeKey → NodeKey × NodeKey}
  {n k u x y z seed first last : NodeKey} {front mid back steps : List (NodeKey × FacetId)}

omit [Scalar α] in
theorem Mesh.IsSound.lt_of_onFacet (h : m.IsSound p id) (hi : m.OnFacet n i) : i < id := by
  obtain ⟨v, hv, hi⟩ := hi
  exact (h.isShaped hv).facets_lt i (Vertex.mem_facetSet.1 hi)

namespace Cut

section Facets

variable (h : Effect m m' p log id f r created origin)

include h

theorem Effect.onFacet_created (hn : n ∈ created) :
    m'.OnFacet n i ↔ i = id ∨ (m.OnFacet (origin n).1 i ∧ m.OnFacet (origin n).2 i) := by
  obtain ⟨v, w, x, hv, hw, hx, hn'⟩ := h.created_vertex hn
  rw [Mesh.onFacet_iff hn', Mesh.onFacet_iff hv, Mesh.onFacet_iff hw]
  simpa using Vertex.mem_facets_onEdge hx

theorem Effect.onFacet_lowered (hm : m.IsSound p id) (hr : n ∈ r.nodes) (hl : m.Lowers log f n) :
    m'.OnFacet n i ↔ i = id ∨ (m.OnFacet n i ∧ log.isVertical i) := by
  obtain ⟨v, w, hv, hw, hn'⟩ := h.lowered_vertex hr hl
  rw [Mesh.onFacet_iff hn', Mesh.onFacet_iff hv, Vertex.facetSet_descend hw (hm.isShaped hv)]
  simp

theorem Effect.onFacet_kept (hr : n ∉ r.nodes) (hc : n ∉ created) :
    m'.OnFacet n i ↔ m.OnFacet n i := by
  rw [Mesh.OnFacet, h.kept hr hc, Mesh.OnFacet]

end Facets

/-- The one node that takes the place of what was cut away at a facet. If a node that survives is on
the facet, the new one is on the edge to it. -/
structure Tip (m m' : Mesh α) (log : FacetLog α) (id : FacetId) (f : Facet α) (r : Region)
    (created : List NodeKey) (origin : NodeKey → NodeKey × NodeKey) (i : FacetId) (x : NodeKey) :
    Prop where
  fresh : Fresh m log f r created x
  onFacet_iff : ∀ {j}, m'.OnFacet x j ↔ j = i ∨ j = id
  eq_of_onFacet : ∀ {n}, Fresh m log f r created n → m'.OnFacet n i → n = x
  joined : ∀ {k}, k ∉ r.nodes → m.OnFacet k i → x ∈ created ∧ k = (origin x).2

section Tips

variable (hm : m.IsSound 2 id) (hr : r.IsAround m f seed)
  (h : Effect m m' 2 log id f r created origin)
  (hsides : ∀ i < id, log.isVertical i ↔ i < 2)

include hm hsides

omit [Scalar α] in
/-- A vertex tops a vertical edge if it is on one side of the simplex. -/
theorem hasVerticalEdge_of_side {v : Vertex α} (hv : m.vertex? n = some v) (hi : i < 2) (hc : 2 ≤ c)
    (hfacets : ∀ j, m.OnFacet n j ↔ j = i ∨ j = c) : v.hasVerticalEdge log := by
  rw [Vertex.hasVerticalEdge_iff (hm.isShaped hv)]
  have hfilter : v.facetSet.filter (log.isVertical ·) = {i} := by
    ext j
    rw [Finset.mem_filter, Finset.mem_singleton, ← Mesh.onFacet_iff hv]
    constructor
    · rintro ⟨hj, hvertical⟩
      have hlt := (hsides j (hm.lt_of_onFacet hj)).1 hvertical
      exact ((hfacets j).1 hj).resolve_right fun heq => Nat.not_lt.2 hc (heq ▸ hlt)
    · rintro rfl
      have hj : m.OnFacet n j := (hfacets j).2 (.inl rfl)
      exact ⟨hj, (hsides j (hm.lt_of_onFacet hj)).2 hi⟩
  rw [hfilter, Finset.card_singleton]

omit [Scalar α] in
/-- A lowered vertex is on some side of the simplex. -/
theorem exists_side_of_lowers (hl : m.Lowers log f n) : ∃ i < 2, m.OnFacet n i := by
  obtain ⟨v, hv, -, hvert⟩ := hl
  rw [Vertex.hasVerticalEdge_iff (hm.isShaped hv)] at hvert
  obtain ⟨i, hi⟩ :=
    Finset.card_pos.1 (show 0 < (v.facetSet.filter (log.isVertical ·)).card by omega)
  obtain ⟨hi, hvertical⟩ := Finset.mem_filter.1 hi
  have hn : m.OnFacet n i := ⟨v, hv, hi⟩
  exact ⟨i, (hsides i (hm.lt_of_onFacet hn)).1 hvertical, hn⟩

include hr h

/-- At an end of the path the corner is lowered. -/
theorem tip_of_side (hkind : f.kind = .point) (hz : z ∈ r.nodes) (hi : i < 2) (hc : 2 ≤ c)
    (hfacets : ∀ j, m.OnFacet z j ↔ j = i ∨ j = c) (honly : ∀ {k}, m.OnFacet k i → k = z) :
    Tip m m' log id f r created origin i z := by
  have hzi : m.OnFacet z i := (hfacets i).2 (.inl rfl)
  have hlt := hm.lt_of_onFacet hzi
  obtain ⟨v, hv, -⟩ := hm.stored (hr.contains hz)
  have hl : m.Lowers log f z :=
    ⟨v, hv, hkind, hasVerticalEdge_of_side hm hsides hv hi hc hfacets⟩
  refine ⟨.inr ⟨hz, hl⟩, fun {j} => ?_, fun {n} hn hni => ?_, fun hk hki => ?_⟩
  · rw [h.onFacet_lowered hm hz hl]
    constructor
    · rintro (rfl | ⟨hj, hvertical⟩)
      · exact .inr rfl
      · have hj2 := (hsides j (hm.lt_of_onFacet hj)).1 hvertical
        exact .inl (((hfacets j).1 hj).resolve_right fun heq => Nat.not_lt.2 hc (heq ▸ hj2))
    · rintro (rfl | rfl)
      · exact .inr ⟨hzi, (hsides j hlt).2 hi⟩
      · exact .inl rfl
  · rcases hn with hn | ⟨hnr, hl⟩
    · rw [h.onFacet_created hn] at hni
      obtain ⟨hfst, hsnd⟩ := hni.resolve_left hlt.ne
      -- both ends of the cut edge would be the corner
      have hedge :=
        hr.mem_cutEdges.1 (h.map_origin ▸ List.mem_map_of_mem hn : origin n ∈ r.cutEdges)
      exact absurd (honly hsnd ▸ hz) hedge.2
    · rw [h.onFacet_lowered hm hnr hl] at hni
      exact honly (hni.resolve_left hlt.ne).1
  · exact absurd (honly hki ▸ hz) hk

/-- In the middle of the path the edge to the next node is cut. -/
theorem exists_tip_of_edge (hz : z ∈ r.nodes) (hu : u ∉ r.nodes) (hi : 2 ≤ i)
    (hjoined : u ∈ m.graph.neighbors z) (hshared : ∀ j, m.OnFacet z j ∧ m.OnFacet u j ↔ j = i)
    (honly : ∀ {k}, m.OnFacet k i → k = z ∨ k = u) :
    ∃ x, Tip m m' log id f r created origin i x := by
  obtain ⟨hzi, hui⟩ := (hshared i).2 rfl
  have hlt := hm.lt_of_onFacet hzi
  have hcut : (z, u) ∈ r.cutEdges := hr.mem_cutEdges.2 ⟨⟨hz, hjoined⟩, hu⟩
  rw [← h.map_origin] at hcut
  obtain ⟨x, hx, horigin⟩ := List.mem_map.1 hcut
  refine ⟨x, .inl hx, fun {j} => ?_, fun {n} hn hni => ?_, fun hk hki => ⟨hx, ?_⟩⟩
  · rw [h.onFacet_created hx, horigin, hshared, or_comm]
  · rcases hn with hn | ⟨hnr, hl⟩
    · rw [h.onFacet_created hn] at hni
      obtain ⟨hfst, hsnd⟩ := hni.resolve_left hlt.ne
      have hedge :=
        hr.mem_cutEdges.1 (h.map_origin ▸ List.mem_map_of_mem hn : origin n ∈ r.cutEdges)
      have hfst' : (origin n).1 = z := (honly hfst).resolve_right fun heq => hu (heq ▸ hedge.1.1)
      have hsnd' : (origin n).2 = u := (honly hsnd).resolve_left fun heq => hedge.2 (heq ▸ hz)
      exact h.origin_inj (hr.cutEdges_nodup hm.simple.nodup) hn hx
        (horigin.symm ▸ Prod.ext hfst' hsnd')
    · rw [h.onFacet_lowered hm hnr hl] at hni
      exact absurd ((hsides i hlt).1 (hni.resolve_left hlt.ne).2) (Nat.not_lt.2 hi)
  · rw [horigin]
    exact (honly hki).resolve_left fun heq => hk (heq ▸ hz)

end Tips

section Joined

variable (hm : m.IsSound 2 id) (h : Effect m m' 2 log id f r created origin)

include hm h

/-- A fresh node is joined to the surviving nodes next to it. -/
theorem Tip.mem_neighbors {v w : Vertex α} (hx : Tip m m' log id f r created origin i x)
    (hk : m.graph.contains k) (hkr : k ∉ r.nodes) (hv : m'.vertex? x = some v)
    (hw : m'.vertex? k = some w) (hvw : v.isNeighbour w) : k ∈ m'.graph.neighbors x := by
  obtain ⟨j, hxj, hkj, -⟩ := h.sound.exists_shared_of_isNeighbour hv hw hvw
  rw [h.onFacet_kept hkr fun hc => h.created_new hc hk] at hkj
  obtain rfl := (hx.onFacet_iff.1 hxj).resolve_right (hm.lt_of_onFacet hkj).ne
  exact h.mem_neighbors.2 (.inr (.inl (hx.joined hkr hkj)))

theorem isComplete_of_tips (hcomplete : m.IsComplete)
    (htips : ∀ {n}, Fresh m log f r created n → ∃ i, Tip m m' log id f r created origin i n) :
    m'.IsComplete := by
  intro n u v w hv hw hvw
  have hold {k : NodeKey} {x : Vertex α} (hx : m'.vertex? k = some x)
      (hk : ¬ Fresh m log f r created k) : m.graph.contains k ∧ k ∉ r.nodes :=
    ((h.contains_iff hm).1 (Mesh.contains_of_vertex? hx)).resolve_right hk
  by_cases hn : Fresh m log f r created n <;> by_cases hu : Fresh m log f r created u
  · exact h.mem_neighbors.2 (.inr (.inr (.inr ⟨hn, hu, v, w, hv, hw, hvw⟩)))
  · obtain ⟨i, htip⟩ := htips hn
    obtain ⟨hu, hur⟩ := hold hw hu
    exact htip.mem_neighbors hm h hu hur hv hw hvw
  · obtain ⟨i, htip⟩ := htips hu
    obtain ⟨hn, hnr⟩ := hold hv hn
    have hwv := (Vertex.isNeighbour_comm (h.sound.isShaped hv) (h.sound.isShaped hw)).1 hvw
    exact h.sound.simple.symm (htip.mem_neighbors hm h hn hnr hw hv hwv)
  · obtain ⟨hn, hnr⟩ := hold hv hn
    obtain ⟨hu, hur⟩ := hold hw hu
    rw [h.kept hnr fun hc => h.created_new hc hn] at hv
    rw [h.kept hur fun hc => h.created_new hc hu] at hw
    exact h.mem_neighbors.2 (.inl ⟨hcomplete hv hw hvw, hnr, hur⟩)

end Joined

section Path

variable (hpath : m.IsPath id first last (front ++ mid ++ back))
  (hpieces : m.Pieces front a mid b back) (hnodes : ∀ {n}, n ∈ r.nodes ↔ n ∈ mid.map Prod.fst)
  (hr : r.IsAround m f seed) (h : Effect m m' 2 log id f r created origin)
  (hsides : ∀ i < id, log.isVertical i ↔ i < 2)

include hpath hpieces hnodes hr h hsides

omit hpieces hnodes in
/-- Of two nodes next to each other on the path, one is cut away. -/
theorem exists_tip_between (hz : z ∈ r.nodes) (hu : u ∉ r.nodes) (hzc : m.OnFacet z c)
    (huc : m.OnFacet u c) (hshared : ∀ j, m.OnFacet z j → m.OnFacet u j → j = c)
    (honly : ∀ {k}, m.OnFacet k c → k = z ∨ k = u) :
    ∃ x, Tip m m' log id f r created origin c x := by
  have hne : z ≠ u := fun heq => hu (heq ▸ hz)
  have hjoined := hpath.sound.joined_of_shared hpath.complete hzc huc hshared
  refine exists_tip_of_edge hpath.sound hr h hsides hz hu (hpath.two_le hzc huc hne) hjoined
    (fun j => ?_) honly
  exact ⟨fun hj => hshared j hj.1 hj.2, fun heq => heq ▸ ⟨hzc, huc⟩⟩

theorem exists_tip_start (hkind : f.kind = .point) :
    ∃ x, Tip m m' log id f r created origin a x ∧ (front = [] → x = first) := by
  obtain ⟨⟨z, c⟩, mid, rfl⟩ := List.exists_cons_of_ne_nil hpieces.mid_ne_nil
  have hz : z ∈ r.nodes := hnodes.2 (by simp)
  have hzfacets := hpieces.mid_chain.1
  have hza : m.OnFacet z a := (hzfacets a).2 (.inl rfl)
  have hholder {k : NodeKey} (hk : m.OnFacet k a) :
      front.getLast?.map Prod.fst = some k ∨ k = z := by
    have hmem := hpath.contains_iff.1 (Mesh.contains_of_onFacet hk)
    simpa [eq_comm] using hpieces.holder_start hmem hk
  rcases List.eq_nil_or_concat' front with rfl | ⟨front, ⟨u, a'⟩, rfl⟩
  · obtain rfl : 0 = a := hpieces.front_end
    obtain rfl : z = first := by simpa using hpath.head_eq
    have hc : 2 ≤ c := by
      rw [Nat.two_le_iff]
      constructor
      · rintro rfl
        exact hpieces.notMem_mid hpieces.start_mem (by simp)
      · rintro rfl
        exact hpath.ne (hpath.eq_last ((hzfacets 1).2 (.inr rfl)))
    exact ⟨z, tip_of_side hpath.sound hr h hsides hkind hz Nat.two_pos hc hzfacets
      fun hk => (hholder hk).resolve_left (by simp), fun _ => rfl⟩
  · have hufront : u ∈ (front ++ [(u, a')]).map Prod.fst := by simp
    have hua : m.OnFacet u a := by
      obtain rfl : a' = a := by simpa using hpieces.front_end
      exact ((Mesh.isChain_append.1 hpieces.front_chain).2.1 a').2 (.inr rfl)
    have hu : u ∉ r.nodes := fun hc => hpath.disjoint_front hufront (hnodes.1 hc)
    have hshared (j : FacetId) (hzj : m.OnFacet z j) (huj : m.OnFacet u j) : j = a :=
      hpieces.eq_start hufront (by simp) huj hzj
    obtain ⟨x, hx⟩ := exists_tip_between hpath hr h hsides hz hu hza hua hshared
      fun hk => (hholder hk).symm.imp_right fun hl => by simpa [eq_comm] using hl
    exact ⟨x, hx, fun hnil => by simp at hnil⟩

theorem exists_tip_stop (hkind : f.kind = .point) :
    ∃ y, Tip m m' log id f r created origin b y ∧ (back = [] → y = last ∧ b = 1) := by
  obtain ⟨mid, ⟨z, b'⟩, rfl⟩ := (List.eq_nil_or_concat' mid).resolve_left hpieces.mid_ne_nil
  obtain rfl : b' = b := by simpa using hpieces.mid_end
  have hz : z ∈ r.nodes := hnodes.2 (by simp)
  obtain ⟨hmid, hzfacets, -⟩ := Mesh.isChain_append.1 hpieces.mid_chain
  have hzb : m.OnFacet z b' := (hzfacets b').2 (.inr rfl)
  have hholder {k : NodeKey} (hk : m.OnFacet k b') :
      k = z ∨ back.head?.map Prod.fst = some k := by
    have hmem := hpath.contains_iff.1 (Mesh.contains_of_onFacet hk)
    simpa [eq_comm] using hpieces.holder_stop hmem hk
  cases back with
  | nil =>
    obtain ⟨rfl, rfl⟩ : z = last ∧ b' = 1 := by simpa using hpath.last_eq
    have hc : 2 ≤ chainEnd a mid := by
      rw [Nat.two_le_iff]
      constructor
      · intro heq
        exact hpath.ne (hpath.eq_first ((hzfacets 0).2 (.inl heq.symm))).symm
      · intro heq
        have hmem : chainEnd a mid ∈ a :: mid.map Prod.snd := chainEnd_mem
        have hlabels := hpieces.mid_labels_nodup
        rw [List.map_append, ← List.cons_append, List.nodup_append'] at hlabels
        exact hlabels.2.2 (heq ▸ hmem) (by simp)
    exact ⟨z, tip_of_side hpath.sound hr h hsides hkind hz (Nat.one_lt_two) hc
      (fun j => (hzfacets j).trans or_comm) fun hk => (hholder hk).resolve_right (by simp),
      fun _ => ⟨rfl, rfl⟩⟩
  | cons step back =>
    obtain ⟨u, d⟩ := step
    have huback : u ∈ ((u, d) :: back).map Prod.fst := by simp
    have hub : m.OnFacet u b' := (hpieces.back_chain.1 b').2 (.inl rfl)
    have hu : u ∉ r.nodes := fun hc => hpath.disjoint_back huback (hnodes.1 hc)
    have hshared (j : FacetId) (hzj : m.OnFacet z j) (huj : m.OnFacet u j) : j = b' :=
      hpieces.eq_stop huback (by simp) huj hzj
    obtain ⟨y, hy⟩ := exists_tip_between hpath hr h hsides hz hu hzb hub hshared
      fun hk => (hholder hk).imp_right fun hl => by simpa [eq_comm] using hl
    exact ⟨y, hy, fun hnil => by simp at hnil⟩

/-- Every fresh node is on a facet where the piece that was cut away meets the rest. -/
theorem onFacet_of_fresh (hn : Fresh m log f r created n) : m'.OnFacet n a ∨ m'.OnFacet n b := by
  rcases hn with hn | ⟨hnr, hl⟩
  · have hedge := hr.mem_cutEdges.1 (h.map_origin ▸ List.mem_map_of_mem hn : origin n ∈ r.cutEdges)
    obtain ⟨⟨hzr, hjoined⟩, hur⟩ := hedge
    obtain ⟨i, hzi, hui, -⟩ := hpath.sound.exists_shared hjoined
    have hmid := hnodes.1 hzr
    have hmem := hpath.contains_iff.1 (hpath.sound.simple.contains_neighbor hjoined)
    rw [List.map_append, List.map_append, List.mem_append, List.mem_append, or_assoc] at hmem
    rcases hmem with hfront | hmid' | hback
    · obtain rfl := hpieces.eq_start hfront hmid hui hzi
      exact .inl ((h.onFacet_created hn).2 (.inr ⟨hzi, hui⟩))
    · exact absurd (hnodes.2 hmid') hur
    · obtain rfl := hpieces.eq_stop hback hmid hui hzi
      exact .inr ((h.onFacet_created hn).2 (.inr ⟨hzi, hui⟩))
  · obtain ⟨i, hi, hni⟩ := exists_side_of_lowers hpath.sound hsides hl
    have hni' : m'.OnFacet n i := by
      refine (h.onFacet_lowered hpath.sound hnr hl).2 (.inr ⟨hni, ?_⟩)
      exact (hsides i (hpath.sound.lt_of_onFacet hni)).2 hi
    have hmid := hnodes.1 hnr
    rcases Nat.le_one_iff_eq_zero_or_eq_one.1 (Nat.lt_succ_iff.1 hi) with rfl | rfl
    · rcases List.mem_cons.1 (hpieces.mid_chain.mem_labels hmid hni) with rfl | hmem
      exacts [.inl hni', absurd hmem (hpieces.notMem_mid (List.mem_cons_self ..))]
    · obtain rfl := hpath.eq_last hni
      rcases List.eq_nil_or_concat' back with rfl | ⟨back, step, rfl⟩
      · have hlast := hpath.last_eq
        rw [List.append_nil, List.getLast?_append_of_ne_nil _ hpieces.mid_ne_nil] at hlast
        obtain rfl := (chainEnd_of_getLast? hlast).symm.trans hpieces.mid_end
        exact .inr hni'
      · obtain rfl : step = (n, 1) := by simpa [← List.append_assoc] using hpath.last_eq
        exact absurd hmid (hpath.disjoint_back (by simp))

end Path

/-- A point turns a path into a path between the same nodes. -/
theorem Effect.isPath (h : Effect m m' 2 log id f r created origin)
    (hpath : m.IsPath id first last steps) (hregion : m.violatedRegion f seed = .ok r)
    (hkind : f.kind = .point) (hsides : ∀ i < id, log.isVertical i ↔ i < 2) :
    ∃ steps, m'.IsPath (id + 1) first last steps := by
  have hr := Mesh.isAround_of_violatedRegion hregion
  obtain ⟨front, a, mid, b, back, rfl, hpieces, hnodes⟩ := hpath.exists_pieces hregion
  obtain ⟨x, hx, hfirst⟩ := exists_tip_start hpath hpieces hnodes hr h hsides hkind
  obtain ⟨y, hy, hlast⟩ := exists_tip_stop hpath hpieces hnodes hr h hsides hkind
  have hfresh {n : NodeKey} : Fresh m log f r created n ↔ n = x ∨ n = y := by
    constructor
    · intro hn
      exact (onFacet_of_fresh hpath hpieces hnodes hr h hsides hn).imp
        (hx.eq_of_onFacet hn) (hy.eq_of_onFacet hn)
    · rintro (rfl | rfl)
      exacts [hx.fresh, hy.fresh]
  have hkept {l : List (NodeKey × FacetId)} (hl : l ⊆ front ++ mid ++ back)
      (hout : ∀ n ∈ l.map Prod.fst, n ∉ mid.map Prod.fst) :
      ∀ n ∈ l.map Prod.fst, m'.vertex? n = m.vertex? n := by
    intro n hn
    refine h.kept (fun hc => hout n hn (hnodes.1 hc)) fun hc => h.created_new hc ?_
    exact hpath.contains_iff.2 (List.map_subset _ hl hn)
  have hfront := hpieces.front_chain.congr
    (hkept (List.append_assoc .. ▸ List.subset_append_left ..) fun n hn => hpath.disjoint_front hn)
  have hback := hpieces.back_chain.congr
    (hkept (List.subset_append_right ..) fun n hn => hpath.disjoint_back hn)
  refine ⟨front ++ (x, id) :: (y, b) :: back, h.sound, ?_, ?_, ?_, ?_, ?_, ?_, hpath.ne⟩
  · refine isComplete_of_tips hpath.sound h hpath.complete fun {n} hn => ?_
    rcases hfresh.1 hn with rfl | rfl
    exacts [⟨a, hx⟩, ⟨b, hy⟩]
  · refine Mesh.isChain_append.2 ⟨hfront, ?_⟩
    rw [hpieces.front_end]
    exact ⟨fun i => hx.onFacet_iff, fun i => hy.onFacet_iff.trans or_comm, hback⟩
  · intro n
    rw [h.contains_iff hpath.sound, hfresh, hpath.contains_iff, hnodes]
    simp only [List.map_append, List.map_cons, List.mem_append, List.mem_cons]
    constructor
    · rintro (⟨(hn | hn) | hn, hmid⟩ | hn | hn)
      exacts [.inl hn, absurd hn hmid, .inr (.inr (.inr hn)), .inr (.inl hn), .inr (.inr (.inl hn))]
    · rintro (hn | hn | hn | hn)
      exacts [.inl ⟨.inl (.inl hn), hpath.disjoint_front hn⟩, .inr (.inl hn), .inr (.inr hn),
        .inl ⟨.inr hn, hpath.disjoint_back hn⟩]
  · have hsub := ((List.singleton_sublist.2 hpieces.stop_mem).append_right
      (back.map Prod.snd)).append_left (0 :: front.map Prod.snd)
    have hnew : id ∉ (0 :: front.map Prod.snd) ++ (b :: back.map Prod.snd) := fun hid =>
      lt_irrefl id (hpath.lt_of_mem_labels (by simpa using hsub.subset hid))
    rw [List.map_append, ← List.cons_append]
    exact List.nodup_middle.2 (List.nodup_cons.2 ⟨hnew, hpieces.split_nodup.sublist hsub⟩)
  · cases front with
    | nil => simp [hfirst rfl]
    | cons step front => simpa using hpath.head_eq
  · cases back with
    | nil => simp [hlast rfl]
    | cons step back => simpa using hpath.last_eq

end Cut

end WeightPolyhedron
