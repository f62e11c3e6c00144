import WeightPolyhedron.Proofs.Exact.Complete

/-!
Tightness in exact arithmetic. Whatever the margin is, and whether cuts succeed or fail, every
vertex is over the weight simplex and on all facets that define it. Each way of making a vertex
keeps this: a vertex on an edge stays on the facets that both ends have, and one that descends keeps
only vertical facets.
-/

namespace WeightPolyhedron

namespace Vertex

variable {v a b w : Vertex ℚ} {log : FacetLog ℚ} {f : Facet ℚ} {p bound : Nat} {id : FacetId}

structure IsTight (v : Vertex ℚ) (log : FacetLog ℚ) (p : Nat) : Prop where
  nonneg : ∀ i, 0 ≤ (v.point p).1 i
  level_eq : (log.arrangement p).level (v.point p) = 1
  side_eq : ∀ i ∈ v.facets, (log.arrangement p).side i (v.point p) = 0

namespace IsTight

theorem snoc (h : v.IsTight log p) (hlt : ∀ i ∈ v.facets, i < log.size) (f : Facet ℚ) :
    v.IsTight (log.snoc f) p := by
  refine ⟨h.nonneg, h.level_eq, fun i hi => ?_⟩
  rw [← (log.agreesBelow_snoc f p).side_eq (hlt i hi)]
  exact h.side_eq i hi

theorem isWeight (h : v.IsTight log p) (hlength : v.weight.length = p) : IsWeight p v.weight := by
  refine ⟨hlength, fun x hx => ?_, ?_⟩
  · obtain ⟨i, hi, rfl⟩ := List.getElem_of_mem hx
    simpa [point, Space.of, hi] using h.nonneg ⟨i, hlength ▸ hi⟩
  · rw [← log.level_of hlength v.value]
    exact h.level_eq

/-- The value of the facet along the edge is zero where the new vertex is made. -/
theorem onEdge (ha : a.IsTight log p) (hb : b.IsTight log p) (hlog : log.IsSound p)
    (hla : a.weight.length = p) (hlb : b.weight.length = p) (hid : log.get? id = some f)
    (hw : a.onEdge b id f = .ok w) : w.IsTight log p := by
  obtain ⟨hneg, hnonneg, -⟩ := onEdge_eq_ok hw
  have hne : a.facetValue f - b.facetValue f ≠ 0 := by linarith
  have hpoint := point_onEdge hw hla hlb
  set t := a.facetValue f / (a.facetValue f - b.facetValue f) with ht
  have hform (L : Space p →ₗ[ℚ] ℚ) :
      L (w.point p) = L (a.point p) + t * (L (b.point p) - L (a.point p)) := by
    rw [hpoint, map_add, map_smul, map_sub, smul_eq_mul]
  refine ⟨fun i => ?_, ?_, fun i hi => ?_⟩
  · have ht0 : 0 ≤ t := div_nonneg_of_nonpos hneg.le (by linarith)
    have ht1 : t ≤ 1 := by
      rw [ht, div_le_one_of_neg (by linarith)]
      linarith
    have hcoordinate : (w.point p).1 i =
        (1 - t) * (a.point p).1 i + t * (b.point p).1 i := by
      rw [hpoint]
      simp only [Prod.fst_add, Prod.smul_fst, Prod.fst_sub, Pi.add_apply, Pi.smul_apply,
        Pi.sub_apply, smul_eq_mul]
      ring
    rw [hcoordinate]
    exact add_nonneg (mul_nonneg (sub_nonneg.2 ht1) (ha.nonneg i)) (mul_nonneg ht0 (hb.nonneg i))
  · rw [hform, ha.level_eq, hb.level_eq, sub_self, mul_zero, add_zero]
  · rw [hform]
    rcases (mem_facets_onEdge hw).1 hi with rfl | ⟨hia, hib⟩
    · have hcoefficients := hlog.weightCoefficients_length hid
      rw [FacetLog.side_eq hid, form_point hcoefficients hla, form_point hcoefficients hlb, ht]
      field_simp
      ring
    · rw [ha.side_eq i hia, hb.side_eq i hib, sub_self, mul_zero, add_zero]

/-- The vertical facets that a descent keeps do not depend on the value. -/
theorem descend (h : v.IsTight log p) (hlog : log.IsSound p) (hshape : v.IsShaped p bound)
    (hid : log.get? id = some f) (hkind : f.kind = .point) (hw : v.descend id f log = .ok w) :
    w.IsTight log p := by
  have hvertical : f.isVertical = false := by simp [Facet.isVertical, hkind]
  have hvalue : f.valueCoefficient = -1 := by simp [hlog.valueCoefficient_eq hid, hvertical]
  have hpoint : w.point p = v.point p - v.facetValue f • (log.arrangement p).down :=
    point_descend hw hvalue
  have hweight : (w.point p).1 = (v.point p).1 := by
    rw [point, weight_descend hw]
    rfl
  refine ⟨fun i => hweight ▸ h.nonneg i, ?_, fun i hi => ?_⟩
  · rw [← h.level_eq, log.level_apply, log.level_apply, hweight]
  · rw [hpoint, map_sub, map_smul, smul_eq_mul]
    rw [← mem_facetSet, facetSet_descend hw hshape, Finset.mem_insert, Finset.mem_filter,
      mem_facetSet] at hi
    rcases hi with rfl | ⟨hi, hi'⟩
    · rw [hlog.side_down hid, FacetLog.side_eq hid, form_point
        (hlog.weightCoefficients_length hid) hshape.weight_length]
      simp [hvertical]
    · obtain ⟨g, hg, hg'⟩ := (Option.any_eq_true ..).1 hi'
      rw [h.side_eq i hi, hlog.side_down hg, if_pos hg', mul_zero, sub_zero]

end IsTight

end Vertex

namespace Skeleton

variable {s s' : Skeleton ℚ} {n : NodeKey} {v : Vertex ℚ} {objectives : Nat} {point : List ℚ}
  {originating : Option Nat} {rays : List (List ℚ)} {settings : Settings ℚ}

def IsTight (s : Skeleton ℚ) : Prop :=
  ∀ n v, s.mesh.vertex? n = some v → v.IsTight s.log s.objectives

/-- The corners of the simplex under the first point. -/
theorem isTight_of_start (h : start objectives point originating settings = .ok s) : s.IsTight := by
  have hlog := (isSound_of_start h).log
  obtain ⟨-, hlength, f, hf, rfl⟩ := start_eq_ok h
  obtain ⟨nodes, origin, hclique⟩ := clique_cornerMesh point originating
  rw [hlength] at hclique
  have hget := FacetLog.get?_ofSimplex_snoc objectives f
  rw [Facet.ofVector_eq_ok hf] at hget hlog
  intro n v hv
  obtain ⟨i, hfacets, hpoint, -⟩ := hclique.exists_index hlength
    (hclique.mem_of_contains (Mesh.contains_of_vertex? hv))
  rw [Mesh.facetsAt_eq hv] at hfacets
  rw [Mesh.pointAt_eq hv] at hpoint
  simp only [Facet.ofVector_eq_ok hf]
  refine ⟨fun k => ?_, ?_, fun j hj => ?_⟩
  · rw [hpoint, corner_weight]
    split_ifs <;> simp
  · simp [hpoint, FacetLog.level_apply, corner_weight]
  · rw [← Vertex.mem_facetSet, hfacets, Finset.mem_erase, Finset.mem_range] at hj
    rw [hpoint, hlog.side_corner hget i hj.2, if_neg hj.1]

theorem IsTight.step (ht : s.IsTight) (h : s.IsSound) (hstep : Step s s') : s'.IsTight := by
  obtain ⟨h', hobj, -⟩ := h.step hstep
  intro n v hv
  rcases h.step_cases hstep with ⟨hlog, hkept⟩ | ⟨f, r, -, hlog, hleaves⟩
  · rw [hlog, hobj]
    exact ht n v (hkept n ▸ hv)
  have hget : s'.log.get? s.log.size = some f := hlog ▸ FacetLog.get?_snoc_size
  have hold {k u} (hu : s.mesh.vertex? k = some u) : u.IsTight s'.log s'.objectives := by
    rw [hlog, hobj]
    exact (ht _ _ hu).snoc (h.mesh.isShaped hu).facets_lt f
  have hshape {k u} (hu : s.mesh.vertex? k = some u) : u.IsShaped s'.objectives s.log.size :=
    hobj ▸ h.mesh.isShaped hu
  cases hleaves.source hv with
  | kept hu => exact hold hu
  | lowered hu hkind hw => exact (hold hu).descend h'.log (hshape hu) hget hkind hw
  | split _ ha hb hw =>
    have hw := (hold ha).onEdge (hold hb) h'.log (hshape ha).weight_length
      (hshape hb).weight_length hget hw
    exact ⟨hw.nonneg, hw.level_eq, hw.side_eq⟩

theorem isTight_after (h : build objectives point originating rays settings = .ok s)
    (requests : List (Request ℚ)) : (s.after requests).IsTight := by
  refine (after_induction (P := fun s => s.IsSound ∧ s.IsTight) h ?_ ?_ requests).2
  · exact fun s₀ hs₀ => ⟨isSound_of_start hs₀, isTight_of_start hs₀⟩
  · exact fun t t' ht hstep => ⟨(ht.1.step hstep).1, ht.2.step ht.1 hstep⟩

/-- Over any history of requests, those included that fail, and with any margin, every vertex is
over the weight simplex, and each of the facets that define it is stored and tight at it. Where a
side of the simplex is one of them, its weight is zero. -/
theorem tight_after_build (h : build objectives point originating rays settings = .ok s)
    (requests : List (Request ℚ)) :
    let t := s.after requests
    ∀ n v, t.mesh.vertex? n = some v →
      v.weight.length = objectives ∧ (∀ x ∈ v.weight, 0 ≤ x) ∧ v.weight.sum = 1 ∧
      v.facets.length = objectives ∧ v.facets.Nodup ∧
      (∀ i ∈ v.facets, ∃ f, t.log.get? i = some f ∧ f.evaluate v.weight v.value = 0) ∧
      ∀ i ∈ v.facets, i < objectives → v.weight[i]? = some 0 := by
  intro t n v hv
  obtain ⟨ht, hobj, -⟩ := isSound_after h requests
  have htight := isTight_after h requests n v hv
  have hshape := ht.mesh.isShaped hv
  have hlog := ht.log
  rw [hobj] at htight hshape hlog
  obtain ⟨hlength, hnonneg, hsum⟩ := htight.isWeight hshape.weight_length
  refine ⟨hlength, hnonneg, hsum, hshape.facets_length, hshape.facets_nodup, fun i hi => ?_,
    fun i hi hip => ?_⟩
  · obtain ⟨f, hf⟩ := FacetLog.exists_get? (hshape.facets_lt i hi)
    have hside := htight.side_eq i hi
    rw [FacetLog.side_eq hf, Vertex.form_point (hlog.weightCoefficients_length hf) hlength] at hside
    exact ⟨f, hf, hside⟩
  · have hside := htight.side_eq i hi
    rw [hlog.side_boundary ⟨i, hip⟩] at hside
    have hi' : i < v.weight.length := hlength.symm ▸ hip
    simpa [Vertex.point, Space.of, hi'] using hside

/-- With a margin below zero, the point that was taken first fails to cut between two reports that
cut. -/
theorem tight_after_failed_report : ∃ s : Skeleton ℚ,
    build 2 [3, 5] none [] ⟨-1, true, .immediate⟩ = .ok s ∧
      ((s.after [.nextWeight, .point [1, 8]]).respond (.pointAnywhere [3, 5])).1.isOk = false ∧
      let t := s.after [.nextWeight, .point [1, 8], .pointAnywhere [3, 5], .rayAnywhere [1, -3]]
      ∀ n v, t.mesh.vertex? n = some v → v.weight.sum = 1 ∧
        ∀ i ∈ v.facets, ∃ f, t.log.get? i = some f ∧ f.evaluate v.weight v.value = 0 := by
  have hrun : (build (α := ℚ) 2 [3, 5] none [] ⟨-1, true, .immediate⟩).toOption.any fun s =>
      !((s.after [.nextWeight, .point [1, 8]]).respond (.pointAnywhere [3, 5])).1.isOk := by
    decide +kernel
  obtain ⟨s, hs, hfails⟩ := exists_ok_of_any hrun
  refine ⟨s, hs, by simpa using hfails, fun n v hv => ?_⟩
  obtain ⟨-, -, hsum, -, -, htight, -⟩ := tight_after_build hs _ n v hv
  exact ⟨hsum, htight⟩

end Skeleton

end WeightPolyhedron
