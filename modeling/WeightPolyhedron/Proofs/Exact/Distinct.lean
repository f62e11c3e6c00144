import WeightPolyhedron.Proofs.Exact.Complete
import WeightPolyhedron.Proofs.Exact.Feasible

/-!
No facet is stored twice in exact arithmetic: a facet only cuts if it violates a vertex, and no
vertex violates a facet that is stored. So there are no more stored facets than there are facets to
report.
-/

namespace WeightPolyhedron

namespace FacetLog

variable {log : FacetLog ℚ} {f : Facet ℚ} {p : Nat}

theorem mem_facets_iff : f ∈ log.facets.toList ↔ ∃ i, log.get? i = some f := by
  rw [List.mem_iff_getElem?]
  simp [get?]

theorem nodup_ofSimplex (p : Nat) : (ofSimplex p : FacetLog ℚ).facets.toList.Nodup := by
  rw [toList_ofSimplex]
  apply List.Nodup.map_on ?_ List.nodup_range
  intro i hi j hj heq
  have hunit : (Facet.unitVector p i : List ℚ) = Facet.unitVector p j :=
    List.append_cancel_right (Facet.mk.inj heq).1
  -- the two unit vectors agree in the place of the first one
  have hone := getD_unitVector ⟨j, List.mem_range.1 hj⟩ ⟨i, List.mem_range.1 hi⟩
  rw [← hunit, getD_unitVector ⟨i, List.mem_range.1 hi⟩ ⟨i, List.mem_range.1 hi⟩] at hone
  simpa using hone

theorem nodup_snoc (h : log.facets.toList.Nodup) (hf : ∀ i, log.get? i ≠ some f) :
    (log.snoc f).facets.toList.Nodup := by
  rw [snoc, Array.toList_push, List.nodup_append_comm, List.singleton_append, List.nodup_cons]
  refine ⟨fun hmem => ?_, h⟩
  obtain ⟨i, hi⟩ := mem_facets_iff.1 hmem
  exact hf i hi

/-- A log without repetition is no longer than the facets are many that it can hold. -/
theorem size_le_card (h : log.facets.toList.Nodup) {facets : Finset (Facet ℚ)}
    (hmem : ∀ i f, log.get? i = some f → f ∈ facets) : log.size ≤ facets.card := by
  rw [size, ← Array.length_toList, ← List.toFinset_card_of_nodup h]
  apply Finset.card_le_card
  intro f hf
  obtain ⟨i, hi⟩ := mem_facets_iff.1 (List.mem_toFinset.1 hf)
  exact hmem i f hi

end FacetLog

namespace Skeleton

variable {s s' : Skeleton ℚ} {objectives : Nat} {point : List ℚ} {originating : Option Nat}
  {settings : Settings ℚ}

theorem nodup_of_start (h : start objectives point originating settings = .ok s) :
    s.log.facets.toList.Nodup := by
  obtain ⟨-, -, f, hf, rfl⟩ := start_eq_ok h
  apply FacetLog.nodup_snoc (FacetLog.nodup_ofSimplex objectives)
  intro i hi
  have hlt := FacetLog.lt_size_of_get? hi
  rw [FacetLog.size_ofSimplex] at hlt
  have hkind := ((FacetLog.isSound_ofSimplex objectives).kind_eq_boundary_iff hi).2 hlt
  simp [Facet.kind_of_ofPoint hf] at hkind

theorem IsExact.nodup_step (h : s.IsExact) (hnodup : s.log.facets.toList.Nodup)
    (hstep : Step s s') : s'.log.facets.toList.Nodup := by
  cases hstep with
  | take | note => exact hnodup
  | cut report tested done =>
    obtain ⟨-, -, hlog, -⟩ := h.sound.cut_eq_ok report done
    rw [hlog]
    exact FacetLog.nodup_snoc hnodup fun i hi => h.not_tested hi tested
  | failedCut report tested failed =>
    exact absurd failed (h.cut_ne_error report (h.violatedAt tested))

theorem IsExact.nodup_reaches (h : s.IsExact) (hnodup : s.log.facets.toList.Nodup)
    (hsteps : Relation.ReflTransGen Step s s') : s'.log.facets.toList.Nodup := by
  induction hsteps with
  | refl => exact hnodup
  | tail hsteps hstep ih => exact (h.reaches hsteps).nodup_step ih hstep

end Skeleton

end WeightPolyhedron
