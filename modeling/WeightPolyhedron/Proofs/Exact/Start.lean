import WeightPolyhedron.Proofs.Exact.Mesh
import WeightPolyhedron.Proofs.Skeleton.Start

/-!
The mesh of a first point is exact. No half-space has to be moved for it: the sides of the simplex
and the facet of the point are a simple arrangement, with a node over each corner.
-/

namespace WeightPolyhedron

open Arrangement

variable {log : FacetLog ℚ} {p : Nat} {point : List ℚ} {originating : Option Nat}

theorem getD_unitVector (i k : Fin p) :
    (Facet.unitVector p i : List ℚ)[k.val]?.getD 0 = if k = i then 1 else 0 := by
  simp [Facet.unitVector, Fin.val_inj]

theorem corner_weight (i k : Fin p) (z : ℚ) :
    (Space.of p (Facet.unitVector p i) z).1 k = if k = i then 1 else 0 := by
  simp [Space.of, getD_unitVector]

namespace FacetLog

theorem IsSound.side_boundary (h : log.IsSound p) (j : Fin p) (y : Space p) :
    (log.arrangement p).side j y = y.1 j := by
  have hget := h.boundary j j.isLt
  rw [Facet.boundary?, if_pos j.isLt] at hget
  rw [side_eq hget, Facet.form_apply]
  simp [Facet.weightCoefficients, Facet.valueCoefficient, getD_unitVector]

theorem side_point (hget : log.get? p = some ⟨point ++ [-1], .point⟩) (y : Space p) :
    (log.arrangement p).side p y = ∑ i : Fin p, point.getD i 0 * y.1 i - y.2 := by
  rw [side_eq hget, Facet.form_apply]
  simp [Facet.weightCoefficients, Facet.valueCoefficient, sub_eq_add_neg]

/-- At a corner, all sides but its own are tight, and so is the facet of the point. -/
theorem IsSound.side_corner (h : log.IsSound p) (hget : log.get? p = some ⟨point ++ [-1], .point⟩)
    (i : Fin p) {j : Nat} (hj : j < p + 1) :
    (log.arrangement p).side j (Space.of p (Facet.unitVector p i) (point.getD i 0)) =
      if j = i then 1 else 0 := by
  rcases Nat.lt_succ_iff_lt_or_eq.1 hj with hj | rfl
  · rw [h.side_boundary ⟨j, hj⟩, corner_weight]
    simp [Fin.ext_iff]
  · have hsum : ∑ k : Fin j, point.getD k 0 *
        (Space.of j (Facet.unitVector j i) (point.getD i 0)).1 k = point.getD i 0 := by
      simp [corner_weight]
    rw [side_point hget, hsum, if_neg i.isLt.ne']
    exact sub_self _

/-- The tight half-spaces at a corner meet in it alone. -/
theorem IsSound.eq_zero_of_corner (h : log.IsSound p)
    (hget : log.get? p = some ⟨point ++ [-1], .point⟩) (i : Fin p) {d : Space p}
    (hlevel : (log.arrangement p).level d = 0)
    (hd : ∀ j ∈ (Finset.range (p + 1)).erase i, (log.arrangement p).side j d = 0) : d = 0 := by
  have hother (k : Fin p) (hk : k ≠ i) : d.1 k = 0 := by
    have hmem : k.val ∈ (Finset.range (p + 1)).erase i :=
      Finset.mem_erase.2 ⟨fun hc => hk (Fin.ext hc),
        Finset.mem_range.2 (k.isLt.trans (Nat.lt_succ_self p))⟩
    rw [← h.side_boundary]
    exact hd k hmem
  have hweight : d.1 = 0 := by
    funext k
    by_cases hk : k = i
    · rw [level_apply, Finset.sum_eq_single i (fun k _ hk => hother k hk) (by simp)] at hlevel
      rw [hk, hlevel]
      rfl
    · exact hother k hk
  have hvalue := hd p (Finset.mem_erase.2 ⟨i.isLt.ne', Finset.self_mem_range_succ p⟩)
  rw [side_point hget, hweight] at hvalue
  exact Prod.ext hweight (by simpa using hvalue)

/-- Each corner but one is on a side, and below the facet of the point all half-spaces are sides. -/
theorem IsSound.corner_ends (h : log.IsSound p) (i : Fin p) {j : Nat}
    (hj : j ∈ (Finset.range (p + 1)).erase i) :
    (∀ k ∈ ((Finset.range (p + 1)).erase i).erase j, (log.arrangement p).vertical k) ∨
      ∃ u ∈ (Set.univ : Set (Fin p)), u ≠ i ∧
        ((Finset.range (p + 1)).erase i).erase j ⊆ (Finset.range (p + 1)).erase u := by
  obtain ⟨hji, hjrange⟩ := Finset.mem_erase.1 hj
  rcases Nat.lt_succ_iff_lt_or_eq.1 (Finset.mem_range.1 hjrange) with hjp | rfl
  · refine .inr ⟨⟨j, hjp⟩, trivial, fun hc => hji (congrArg Fin.val hc), ?_⟩
    exact Finset.erase_subset_erase _ (Finset.erase_subset _ _)
  · refine .inl fun k hk => ?_
    obtain ⟨hkj, hk⟩ := Finset.mem_erase.1 hk
    have hkp : k < j := lt_of_le_of_ne
      (Nat.lt_succ_iff.1 (Finset.mem_range.1 (Finset.mem_of_mem_erase hk))) hkj
    exact h.isVertical_of_lt hkp

/-- The corners of the simplex under the facet of a point. -/
theorem IsSound.isSimple_corners (h : log.IsSound p) (hp : 0 < p) (hsize : log.size = p + 1)
    (hget : log.get? p = some ⟨point ++ [-1], .point⟩) :
    (log.arrangement p).IsSimple p (p + 1) Set.univ
      (fun i : Fin p => (Finset.range (p + 1)).erase i)
      fun i => Space.of p (Facet.unitVector p i) (point.getD i 0) where
  upright := hsize ▸ h.isUpright
  level_eq {i} _ := by simp [level_apply, corner_weight]
  facets_lt _ hj := Finset.mem_range.1 (Finset.mem_of_mem_erase hj)
  nonneg {i j} _ hj := by
    rw [h.side_corner hget i hj]
    split_ifs <;> simp
  tight_iff {i j} _ hj := by
    rw [h.side_corner hget i hj, Finset.mem_erase, Finset.mem_range, and_iff_left hj]
    simp
  card_eq {i} _ := by
    rw [Finset.card_erase_of_mem (Finset.mem_range.2 (i.isLt.trans (Nat.lt_succ_self p))),
      Finset.card_range]
    rfl
  spans {i d} _ hlevel hd := h.eq_zero_of_corner hget i hlevel hd
  inj {i k} _ _ heq := by
    by_contra hik
    have hmem : i.val ∈ (Finset.range (p + 1)).erase k :=
      Finset.mem_erase.2 ⟨fun hc => hik (Fin.ext hc),
        Finset.mem_range.2 (i.isLt.trans (Nat.lt_succ_self p))⟩
    exact Finset.notMem_erase i.val _ (heq ▸ hmem)
  ends {i j} _ hj := h.corner_ends i hj
  inhabited _ := ⟨⟨0, hp⟩, trivial⟩

end FacetLog

namespace Skeleton

variable {m : Mesh ℚ} {bound : Nat} {nodes : List NodeKey} {origin : NodeKey → Vertex ℚ × Bool}
  {n : NodeKey}

theorem Clique.mem_nodeSet {corners : List (Vertex ℚ × Bool)}
    (h : Clique m p bound nodes corners origin) : n ∈ m.nodeSet ↔ n ∈ nodes :=
  ⟨fun hn => h.mem_of_contains hn, fun hn => Mesh.contains_of_vertex? (h.vertex?_eq hn)⟩

/-- Each node of the first mesh is over a corner. -/
theorem Clique.exists_index (h : Clique m p bound nodes (cornersOver point originating) origin)
    (hlength : point.length = p) (hn : n ∈ nodes) : ∃ i : Fin p,
      m.facetsAt n = (Finset.range (p + 1)).erase i ∧
        m.pointAt p n = Space.of p (Facet.unitVector p i) (point.getD i 0) ∧
          m.facetsAt n = (origin n).1.facetSet := by
  have hmem : origin n ∈ cornersOver point originating :=
    h.map_origin ▸ List.mem_map_of_mem hn
  obtain ⟨i, value, hvalue, hcorner, -⟩ := mem_cornersOver.1 hmem
  rw [hlength] at hcorner
  have hi : i < p := by
    obtain ⟨hlt, -⟩ := List.getElem?_eq_some_iff.1 hvalue
    exact hlength ▸ hlt
  have hvertex := h.vertex?_eq hn
  have hfacets : m.facetsAt n = (origin n).1.facetSet := by
    rw [Mesh.facetsAt_eq hvertex]
    rfl
  refine ⟨⟨i, hi⟩, hfacets.trans (Vertex.corner?_facetSet hcorner), ?_, hfacets⟩
  rw [Vertex.corner?_eq_some hi, Option.some.injEq] at hcorner
  rw [Mesh.pointAt_eq hvertex, ← hcorner, List.getD_eq_getElem?_getD, hvalue]
  rfl

/-- The mesh of a first point is exact. -/
theorem Clique.isExact (h : Clique m p bound nodes (cornersOver point originating) origin)
    (hlog : log.IsSound p) (hp : 0 < p) (hsize : log.size = p + 1)
    (hget : log.get? p = some ⟨point ++ [-1], .point⟩) (hlength : point.length = p) :
    m.IsExact log p := by
  have hsimple := hlog.isSimple_corners hp hsize hget
  have hex (n : NodeKey) : ∃ i : Fin p, n ∈ nodes → m.facetsAt n = (Finset.range (p + 1)).erase i ∧
      m.pointAt p n = Space.of p (Facet.unitVector p i) (point.getD i 0) ∧
        m.facetsAt n = (origin n).1.facetSet := by
    by_cases hn : n ∈ nodes
    · exact (h.exists_index hlength hn).imp fun _ hi _ => hi
    · exact ⟨⟨0, hp⟩, fun hc => absurd hc hn⟩
  choose index hindex using hex
  have hnodup : (nodes.map fun n => (origin n).1.facetSet).Nodup := by
    have hcorners := facetSet_cornersOver_nodup point originating
    rwa [← h.map_origin, List.map_map] at hcorners
  have hbij : Set.BijOn index m.nodeSet Set.univ := by
    refine ⟨fun _ _ => trivial, ?_, ?_⟩
    · intro n hn k hk heq
      rw [h.mem_nodeSet] at hn hk
      apply List.inj_on_of_nodup_map hnodup hn hk
      rw [← (hindex n hn).2.2, ← (hindex k hk).2.2, (hindex n hn).1, (hindex k hk).1, heq]
    · intro i _
      have hi : i.val < point.length := hlength ▸ i.isLt
      obtain ⟨v, hv⟩ : ∃ v, Vertex.corner? i.val point.length point[i.val] point.length = some v :=
        ⟨_, Vertex.corner?_eq_some hi⟩
      have hc : (v, decide (originating ≠ some i.val)) ∈ cornersOver point originating :=
        mem_cornersOver.2 ⟨i, _, List.getElem?_eq_getElem hi, hv, rfl⟩
      rw [← h.map_origin] at hc
      obtain ⟨n, hn, horigin⟩ := List.mem_map.1 hc
      refine ⟨n, h.mem_nodeSet.2 hn, hsimple.inj trivial trivial ?_⟩
      rw [← (hindex n hn).1, (hindex n hn).2.2, horigin, Vertex.corner?_facetSet hv, hlength]
  have hmesh : (log.arrangement p).IsSimple p (p + 1) m.nodeSet m.facetsAt (m.pointAt p) :=
    hsimple.comap hbij (fun n hn => (hindex n (h.mem_nodeSet.1 hn)).1)
      fun n hn => (hindex n (h.mem_nodeSet.1 hn)).2.1
  refine ⟨?_, 0, fun n _ => m.pointAt p n, fun _ _ => le_rfl, fun _ => tendsto_const_nhds,
    fun _ _ => tendsto_const_nhds, .of_forall fun t => ?_⟩
  · intro k u hk hu hadj
    exact h.mem_neighbors.2 ⟨h.mem_nodeSet.1 hk, h.mem_nodeSet.1 hu,
      IsSimple.Adjacent.ne hmesh hk hadj⟩
  · rw [hsize]
    exact hmesh.congr ⟨rfl, rfl, fun _ => by simp [Arrangement.shifted], fun _ => rfl⟩

end Skeleton

end WeightPolyhedron
