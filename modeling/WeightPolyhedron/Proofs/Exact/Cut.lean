import WeightPolyhedron.Proofs.Exact.Mesh

/-!
Cuts of exact meshes. The nodes of the mesh after a cut correspond to the nodes of the arrangement
with the new facet, with the same facets and points, and neighbours are joined again.
-/

namespace WeightPolyhedron

open Arrangement

namespace Cut

def originOf (r : Region) (created : List NodeKey) (origin : NodeKey → NodeKey × NodeKey)
    (n : NodeKey) : Origin NodeKey :=
  if n ∈ created then .split (origin n).1 (origin n).2
  else if n ∈ r.nodes then .lowered n
  else .kept n

structure IsExactCut (m m' : Mesh ℚ) (p : Nat) (log : FacetLog ℚ) (f : Facet ℚ) (seed : NodeKey)
    (r : Region) (created : List NodeKey) (origin : NodeKey → NodeKey × NodeKey) : Prop where
  sound : m.IsSound p log.size
  log_sound : log.IsSound p
  report : f.IsReport p
  exact : m.IsExact log p
  seed_violated : m.ViolatedAt f seed
  around : r.IsAround m f seed
  effect : Effect m m' p (log.snoc f) log.size f r created origin

abbrev IsValidIn (m : Mesh ℚ) (p : Nat) (log : FacetLog ℚ) (f : Facet ℚ)
    (a : Origin NodeKey) : Prop :=
  a.IsValid ((log.snoc f).arrangement p) p log.size m.nodeSet
    {n | ((log.snoc f).arrangement p).side log.size (m.pointAt p n) < 0} m.facetsAt

variable {m m' : Mesh ℚ} {p : Nat} {log : FacetLog ℚ} {f : Facet ℚ} {seed n k u a b : NodeKey}
  {r : Region} {created : List NodeKey} {origin : NodeKey → NodeKey × NodeKey}

namespace IsExactCut

variable (h : IsExactCut m m' p log f seed r created origin)

include h

theorem side_neg_iff (hn : n ∈ m.nodeSet) :
    ((log.snoc f).arrangement p).side log.size (m.pointAt p n) < 0 ↔ n ∈ r.nodes := by
  rw [FacetLog.side_eq FacetLog.get?_snoc_size, h.exact.mem_region h.sound h.report h.seed_violated
    h.around, Mesh.violatedAt_iff_form h.sound h.report hn]

theorem notMem_created (hn : n ∈ m.nodeSet) : n ∉ created :=
  fun hc => h.effect.created_new hc hn

theorem isUpright : ((log.snoc f).arrangement p).IsUpright (log.size + 1) := by
  simpa using (h.log_sound.snoc h.report).isUpright

theorem mem_cutEdges_iff : (a, b) ∈ r.cutEdges ↔ IsValidIn m p log f (.split a b) := by
  rw [h.around.mem_cutEdges]
  constructor
  · intro hs
    obtain ⟨⟨ha, hab⟩, hb⟩ := hs
    have hanode : a ∈ m.nodeSet := h.around.contains ha
    have hbnode : b ∈ m.nodeSet := h.sound.simple.contains_neighbor hab
    refine ⟨⟨hanode, (h.side_neg_iff hanode).2 ha⟩, ⟨hbnode, fun hc =>
      hb ((h.side_neg_iff hbnode).1 hc)⟩, ?_⟩
    obtain ⟨v, hv⟩ := h.sound.mem_nodeSet.1 hanode
    obtain ⟨w, hw⟩ := h.sound.mem_nodeSet.1 hbnode
    rw [Adjacent, Mesh.facetsAt_eq hv, Mesh.facetsAt_eq hw]
    exact (Vertex.isNeighbour_iff (h.sound.isShaped hv) (h.sound.isShaped hw)).1
      (h.sound.adjacent hab hv hw)
  · intro hs
    obtain ⟨⟨ha, haV⟩, ⟨hb, hbV⟩, hadj⟩ := hs
    exact ⟨⟨(h.side_neg_iff ha).1 haV, h.exact.complete ha hb hadj⟩,
      fun hc => hbV ((h.side_neg_iff hb).2 hc)⟩

theorem lowers_iff :
    n ∈ r.nodes ∧ m.Lowers (log.snoc f) f n ↔ IsValidIn m p log f (.lowered n) := by
  have hkind : ((log.snoc f).arrangement p).vertical log.size = false ↔ f.kind = .point := by
    have hvertical : ((log.snoc f).arrangement p).vertical log.size = f.isVertical :=
      FacetLog.isVertical_of_get? FacetLog.get?_snoc_size
    simp [hvertical, Facet.isVertical]
  constructor
  · intro hs
    obtain ⟨hn, v, hv, hpoint, hvert⟩ := hs
    have hnode : n ∈ m.nodeSet := h.around.contains hn
    refine ⟨⟨hnode, (h.side_neg_iff hnode).2 hn⟩, hkind.2 hpoint, ?_⟩
    rw [Mesh.facetsAt_eq hv]
    exact (Vertex.hasVerticalEdge_iff (h.sound.isShaped hv)).1 hvert
  · intro hs
    obtain ⟨⟨hnode, hneg⟩, hpoint, hcard⟩ := hs
    obtain ⟨v, hv⟩ := h.sound.mem_nodeSet.1 hnode
    rw [Mesh.facetsAt_eq hv] at hcard
    exact ⟨(h.side_neg_iff hnode).1 hneg, v, hv, hkind.1 hpoint,
      (Vertex.hasVerticalEdge_iff (h.sound.isShaped hv)).2 hcard⟩

theorem kept_iff : n ∈ m.nodeSet ∧ n ∉ r.nodes ↔ IsValidIn m p log f (.kept n) :=
  and_congr_right fun hn => not_congr (h.side_neg_iff hn).symm

theorem mem_nodeSet : n ∈ m'.nodeSet ↔
    n ∈ created ∨ (n ∈ r.nodes ∧ m.Lowers (log.snoc f) f n) ∨ (n ∈ m.nodeSet ∧ n ∉ r.nodes) := by
  rw [h.effect.sound.mem_nodeSet]
  by_cases hc : n ∈ created
  · obtain ⟨-, -, w, -, -, -, hw⟩ := h.effect.created_vertex hc
    exact iff_of_true ⟨_, hw⟩ (.inl hc)
  · by_cases hn : n ∈ r.nodes
    · by_cases hl : m.Lowers (log.snoc f) f n
      · obtain ⟨-, w, -, -, hw⟩ := h.effect.lowered_vertex hn hl
        exact iff_of_true ⟨w, hw⟩ (.inr (.inl ⟨hn, hl⟩))
      · simp [h.effect.removed hn hl, hc, hn, hl]
    · rw [h.effect.kept hn hc, ← h.sound.mem_nodeSet]
      simp [hc, hn]

omit h in
theorem originOf_created (hn : n ∈ created) :
    originOf r created origin n = .split (origin n).1 (origin n).2 := if_pos hn

theorem originOf_lowered (hn : n ∈ r.nodes) : originOf r created origin n = .lowered n := by
  rw [originOf, if_neg (h.notMem_created (h.around.contains hn)), if_pos hn]

theorem originOf_kept (hn : n ∈ m.nodeSet) (hr : n ∉ r.nodes) :
    originOf r created origin n = .kept n := by
  rw [originOf, if_neg (h.notMem_created hn), if_neg hr]

theorem origin_mem (hn : n ∈ created) : ((origin n).1, (origin n).2) ∈ r.cutEdges :=
  h.effect.map_origin ▸ List.mem_map_of_mem hn

theorem mapsTo : Set.MapsTo (originOf r created origin) m'.nodeSet {a | IsValidIn m p log f a} := by
  intro n hn
  rcases h.mem_nodeSet.1 hn with hc | hl | hk
  · rw [originOf_created hc]
    exact h.mem_cutEdges_iff.1 (h.origin_mem hc)
  · rw [h.originOf_lowered hl.1]
    exact h.lowers_iff.1 hl
  · rw [h.originOf_kept hk.1 hk.2]
    exact h.kept_iff.1 hk

theorem injOn : Set.InjOn (originOf r created origin) m'.nodeSet := by
  intro n hn k hk heq
  have hnodup : (created.map origin).Nodup := 
    h.effect.map_origin ▸ h.around.cutEdges_nodup h.sound.simple.nodup
  rcases h.mem_nodeSet.1 hn with hnc | hnl | hnk
  · rcases h.mem_nodeSet.1 hk with hkc | hkl | hkk
    · rw [originOf_created hnc, originOf_created hkc] at heq
      obtain ⟨hfst, hsnd⟩ := Origin.split.inj heq
      exact List.inj_on_of_nodup_map hnodup hnc hkc (Prod.ext hfst hsnd)
    · rw [originOf_created hnc, h.originOf_lowered hkl.1] at heq
      cases heq
    · rw [originOf_created hnc, h.originOf_kept hkk.1 hkk.2] at heq
      cases heq
  · rcases h.mem_nodeSet.1 hk with hkc | hkl | hkk
    · rw [h.originOf_lowered hnl.1, originOf_created hkc] at heq
      cases heq
    · rw [h.originOf_lowered hnl.1, h.originOf_lowered hkl.1] at heq
      exact Origin.lowered.inj heq
    · rw [h.originOf_lowered hnl.1, h.originOf_kept hkk.1 hkk.2] at heq
      cases heq
  · rcases h.mem_nodeSet.1 hk with hkc | hkl | hkk
    · rw [h.originOf_kept hnk.1 hnk.2, originOf_created hkc] at heq
      cases heq
    · rw [h.originOf_kept hnk.1 hnk.2, h.originOf_lowered hkl.1] at heq
      cases heq
    · rw [h.originOf_kept hnk.1 hnk.2, h.originOf_kept hkk.1 hkk.2] at heq
      exact Origin.kept.inj heq

theorem surjOn : Set.SurjOn (originOf r created origin) m'.nodeSet {a | IsValidIn m p log f a} := by
  intro o ho
  cases o with
  | kept n =>
    have hn := h.kept_iff.2 ho
    exact ⟨n, h.mem_nodeSet.2 (.inr (.inr hn)), h.originOf_kept hn.1 hn.2⟩
  | split a b =>
    have he := h.mem_cutEdges_iff.2 ho
    rw [← h.effect.map_origin] at he
    obtain ⟨n, hn, heq⟩ := List.mem_map.1 he
    exact ⟨n, h.mem_nodeSet.2 (.inl hn), by rw [originOf_created hn, heq]⟩
  | lowered n =>
    have hn := h.lowers_iff.2 ho
    exact ⟨n, h.mem_nodeSet.2 (.inr (.inl hn)), h.originOf_lowered hn.1⟩

theorem bijOn : Set.BijOn (originOf r created origin) m'.nodeSet {a | IsValidIn m p log f a} :=
  ⟨h.mapsTo, h.injOn, h.surjOn⟩

theorem facetsAt_eq (hn : n ∈ m'.nodeSet) :
    m'.facetsAt n = (originOf r created origin n).facets ((log.snoc f).arrangement p) log.size
      m.facetsAt := by
  rcases h.mem_nodeSet.1 hn with hc | hl | hk
  · obtain ⟨a, b, w, ha, hb, hw, hv⟩ := h.effect.created_vertex hc
    rw [originOf_created hc, Mesh.facetsAt_eq hv, Origin.facets, Mesh.facetsAt_eq ha,
      Mesh.facetsAt_eq hb]
    ext i
    simp only [Vertex.mem_facetSet, Finset.mem_insert, Finset.mem_inter]
    exact Vertex.mem_facets_onEdge hw
  · obtain ⟨v, w, hv, hw, hv'⟩ := h.effect.lowered_vertex hl.1 hl.2
    rw [h.originOf_lowered hl.1, Mesh.facetsAt_eq hv', Origin.facets, Mesh.facetsAt_eq hv]
    exact Vertex.facetSet_descend hw (h.sound.isShaped hv)
  · rw [h.originOf_kept hk.1 hk.2, Origin.facets, Mesh.facetsAt, Mesh.facetsAt,
      h.effect.kept hk.2 (h.notMem_created hk.1)]

theorem pointAt_eq (hn : n ∈ m'.nodeSet) :
    m'.pointAt p n = (originOf r created origin n).point ((log.snoc f).arrangement p) log.size
      (m.pointAt p) := by
  have hside : ((log.snoc f).arrangement p).side log.size = f.form p :=
    FacetLog.side_eq FacetLog.get?_snoc_size
  rcases h.mem_nodeSet.1 hn with hc | hl | hk
  · obtain ⟨a, b, w, ha, hb, hw, hv⟩ := h.effect.created_vertex hc
    rw [originOf_created hc, Mesh.pointAt_eq hv, Origin.point, hside,
      Mesh.form_pointAt h.sound h.report ha, Mesh.form_pointAt h.sound h.report hb,
      Mesh.pointAt_eq ha, Mesh.pointAt_eq hb]
    -- a point does not depend on the node that the vertex names
    show w.point p = _
    exact Vertex.point_onEdge hw (h.sound.isShaped ha).weight_length
      (h.sound.isShaped hb).weight_length
  · obtain ⟨v, w, hv, hw, hv'⟩ := h.effect.lowered_vertex hl.1 hl.2
    have hpoint : f.kind = .point := by
      obtain ⟨v', -, hkind, -⟩ := hl.2
      exact hkind
    have hdown : f.form p ((log.snoc f).arrangement p).down = 1 := by
      apply (Facet.form_down h.report.valueCoefficient_eq).trans
      simp [Facet.isVertical, hpoint]
    rw [h.originOf_lowered hl.1, Mesh.pointAt_eq hv', Origin.point, hside, hdown, div_one,
      Mesh.form_pointAt h.sound h.report hv, Mesh.pointAt_eq hv]
    apply Vertex.point_descend hw
    simp [h.report.valueCoefficient_eq, Facet.isVertical, hpoint]
  · rw [h.originOf_kept hk.1 hk.2, Origin.point, Mesh.pointAt, Mesh.pointAt,
      h.effect.kept hk.2 (h.notMem_created hk.1)]

theorem resolved : ∃ shift place,
    ((log.snoc f).arrangement p).IsResolution p (log.snoc f).size m'.nodeSet m'.facetsAt
      (m'.pointAt p) shift place := by
  obtain ⟨shift, place, hres⟩ := h.exact.resolved
  obtain ⟨shift', place', hcut⟩ := hres.cut h.isUpright (log.agreesBelow_snoc f p)
  rw [FacetLog.size_snoc]
  exact ⟨shift', _, hcut.comap h.bijOn (fun _ hn => h.facetsAt_eq hn) fun _ hn => h.pointAt_eq hn⟩

theorem isFresh_iff (hn : n ∈ m'.nodeSet) :
    Fresh m (log.snoc f) f r created n ↔ (originOf r created origin n).IsFresh := by
  rcases h.mem_nodeSet.1 hn with hc | hl | hk
  · rw [originOf_created hc]
    exact iff_of_true (.inl hc) trivial
  · rw [h.originOf_lowered hl.1]
    exact iff_of_true (.inr hl) trivial
  · rw [h.originOf_kept hk.1 hk.2]
    refine iff_of_false (fun hf => ?_) id
    rcases hf with hf | hf
    exacts [h.notMem_created hk.1 hf, hk.2 hf.1]

theorem kept_of_not_isFresh (hn : n ∈ m'.nodeSet) (hnot : ¬ (originOf r created origin n).IsFresh) :
    n ∈ m.nodeSet ∧ n ∉ r.nodes ∧ m'.facetsAt n = m.facetsAt n := by
  rw [← h.isFresh_iff hn] at hnot
  rcases h.mem_nodeSet.1 hn with hc | hl | hk
  · exact absurd (.inl hc) hnot
  · exact absurd (.inr hl) hnot
  · refine ⟨hk.1, hk.2, ?_⟩
    rw [h.facetsAt_eq hn, h.originOf_kept hk.1 hk.2]
    rfl

/-- An old node that stays and a fresh one are neighbours only along the cut edge of the fresh
one. -/
theorem joined_kept (hk : k ∈ m.nodeSet) (hkr : k ∉ r.nodes) (hu : u ∈ m'.nodeSet)
    (hfresh : (originOf r created origin u).IsFresh)
    (hadj : (m.facetsAt k ∩ m'.facetsAt u).card + 1 = p) : u ∈ created ∧ k = (origin u).2 := by
  obtain ⟨shift, place, hres⟩ := h.exact.resolved
  rw [h.facetsAt_eq hu] at hadj
  obtain ⟨o, ho⟩ := hres.eq_split_of_adjacent h.isUpright (log.agreesBelow_snoc f p) (h.mapsTo hu)
    hfresh hk (fun hc => hkr ((h.side_neg_iff hk).1 hc)) hadj
  rcases h.mem_nodeSet.1 hu with hc | hl | hkept
  · rw [originOf_created hc] at ho
    exact ⟨hc, (Origin.split.inj ho).2.symm⟩
  · rw [h.originOf_lowered hl.1] at ho
    cases ho
  · rw [h.originOf_kept hkept.1 hkept.2] at ho
    cases ho

theorem complete (hk : k ∈ m'.nodeSet) (hu : u ∈ m'.nodeSet) (hadj : Adjacent p m'.facetsAt k u) :
    u ∈ m'.graph.neighbors k := by
  rw [h.effect.mem_neighbors]
  by_cases hkf : (originOf r created origin k).IsFresh
  · by_cases huf : (originOf r created origin u).IsFresh
    · obtain ⟨v, hv⟩ := h.effect.sound.mem_nodeSet.1 hk
      obtain ⟨w, hw⟩ := h.effect.sound.mem_nodeSet.1 hu
      rw [Adjacent, Mesh.facetsAt_eq hv, Mesh.facetsAt_eq hw] at hadj
      exact .inr (.inr (.inr ⟨(h.isFresh_iff hk).2 hkf, (h.isFresh_iff hu).2 huf, v, w, hv, hw,
        (Vertex.isNeighbour_iff (h.effect.sound.isShaped hv) (h.effect.sound.isShaped hw)).2 hadj⟩))
    · obtain ⟨hold, hstays, heq⟩ := h.kept_of_not_isFresh hu huf
      rw [adjacent_comm, Adjacent, heq] at hadj
      exact .inr (.inl (h.joined_kept hold hstays hk hkf hadj))
  · obtain ⟨hold, hstays, heq⟩ := h.kept_of_not_isFresh hk hkf
    by_cases huf : (originOf r created origin u).IsFresh
    · rw [Adjacent, heq] at hadj
      exact .inr (.inr (.inl (h.joined_kept hold hstays hu huf hadj)))
    · obtain ⟨hold', hstays', heq'⟩ := h.kept_of_not_isFresh hu huf
      rw [Adjacent, heq, heq'] at hadj
      exact .inl ⟨h.exact.complete hold hold' hadj, hstays, hstays'⟩

/-- A cut of an exact mesh is exact. -/
theorem isExact : m'.IsExact (log.snoc f) p where
  complete := h.complete
  resolved := h.resolved

end IsExactCut

end Cut

end WeightPolyhedron
