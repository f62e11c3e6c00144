import Mathlib
import WeightPolyhedron.Proofs.Geometry.Resolution

/-!
Extreme points. The points of the nodes are the extreme points of the polyhedron, so they depend on
the polyhedron alone, and not on the half-spaces that describe it or on how a degenerate arrangement
was resolved.
-/

namespace WeightPolyhedron

open Filter Topology

variable {ι W : Type} [AddCommGroup W] [Module ℚ W]

namespace Arrangement

def polyhedron (A : Arrangement W) (size : ℕ) : Set W := {y | A.Admits size y}

variable {A : Arrangement W} {p size j : ℕ} {nodes : Set ι} {F : ι → Finset ℕ} {pos : ι → W}
  {shift : ℕ → ℚ → ℚ} {place : ι → ℚ → W} {v : ι} {y z d : W} {a b : ℚ}

theorem convex_polyhedron (A : Arrangement W) (size : ℕ) : Convex ℚ (A.polyhedron size) := by
  intro y hy z hz a b ha hb hab
  constructor
  · rw [map_add, map_smul, map_smul, hy.1, hz.1, smul_eq_mul, smul_eq_mul, mul_one, mul_one, hab]
  · intro j hj
    rw [map_add, map_smul, map_smul]
    exact add_nonneg (mul_nonneg ha (hy.2 j hj)) (mul_nonneg hb (hz.2 j hj))

theorem IsUpright.of_shifted {δ : ℕ → ℚ} (h : (A.shifted δ).IsUpright size) :
    A.IsUpright size := by
  have hlevel : A.level A.down = 0 := h.level_down
  refine ⟨hlevel, h.down_ne, fun {j} hj hvertical => ?_, fun {j} hj hvertical => ?_⟩
  · have hside := h.side_down hj hvertical
    rwa [side_shifted, down_shifted, hlevel, mul_zero, add_zero] at hside
  · have hside := h.side_down_pos hj hvertical
    rwa [side_shifted, down_shifted, hlevel, mul_zero, add_zero] at hside

namespace IsResolution

variable (h : A.IsResolution p size nodes F pos shift place)

include h

theorem admits (hv : v ∈ nodes) : A.Admits size (pos v) :=
  ⟨h.level_eq hv, fun _ hj => h.side_nonneg hv hj⟩

theorem facets_lt (hv : v ∈ nodes) (hj : j ∈ F v) : j < size := by
  obtain ⟨t, ht⟩ := h.simple.exists
  exact ht.facets_lt hv hj

theorem isUpright : A.IsUpright size := by
  obtain ⟨t, ht⟩ := h.simple.exists
  exact ht.upright.of_shifted

/-- The half-spaces of a node are tight at its point. -/
theorem side_eq_zero (hv : v ∈ nodes) (hj : j ∈ F v) : A.side j (pos v) = 0 :=
  tendsto_nhds_unique (h.side_tendsto hv j)
    (tendsto_const_nhds.congr' (h.simple.mono fun _ ht => (ht.side_eq_zero hv hj).symm))

/-- No direction of the slice is parallel to all half-spaces of a node. -/
theorem spans (hv : v ∈ nodes) (hlevel : A.level d = 0) (hd : ∀ j ∈ F v, A.side j d = 0) :
    d = 0 := by
  obtain ⟨t, ht⟩ := h.simple.exists
  apply ht.spans hv hlevel
  intro j hj
  rw [side_shifted, hd j hj, hlevel, mul_zero, add_zero]

/-- A segment of the polyhedron through the point of a node has no other point. -/
theorem eq_of_segment (hv : v ∈ nodes) (hy : A.Admits size y) (hz : A.Admits size z) (ha : 0 < a)
    (hb : 0 < b) (hseg : a • y + b • z = pos v) : y = pos v := by
  rw [← sub_eq_zero]
  refine h.spans hv ?_ fun j hj => ?_
  · rw [map_sub, hy.1, h.level_eq hv, sub_self]
  · have hlt := h.facets_lt hv hj
    have hsum := congrArg (A.side j) hseg
    rw [map_add, map_smul, map_smul, h.side_eq_zero hv hj, smul_eq_mul, smul_eq_mul] at hsum
    have hzero : a * A.side j y = 0 := by
      have hya := mul_nonneg ha.le (hy.2 j hlt)
      have hzb := mul_nonneg hb.le (hz.2 j hlt)
      linarith
    rw [map_sub, h.side_eq_zero hv hj, sub_zero]
    exact (mul_eq_zero.1 hzero).resolve_left ha.ne'

theorem convexHull_subset : convexHull ℚ (pos '' nodes) ⊆ A.polyhedron size := by
  apply convexHull_min ?_ (A.convex_polyhedron size)
  rintro _ ⟨v, hv, rfl⟩
  exact h.admits hv

/-- An extreme point is not below a combination of nodes, so it is one. -/
theorem mem_convexHull_of_extreme (hy : y ∈ (A.polyhedron size).extremePoints ℚ) :
    y ∈ convexHull ℚ (pos '' nodes) := by
  obtain ⟨c, depth, hdepth, hc, hone, hsum⟩ := h.exists_combination hy.1
  set top := ∑ v ∈ h.finite.toFinset, c v • pos v with htop
  have hmem : top ∈ convexHull ℚ (pos '' nodes) := by
    apply (convex_convexHull ℚ _).sum_mem _ hone
    · intro v hv
      exact subset_convexHull ℚ _ ⟨v, h.finite.mem_toFinset.1 hv, rfl⟩
    · exact fun v hv => hc v (h.finite.mem_toFinset.1 hv)
  -- the point is half way from the combination to a point as far below
  have hbelow : A.Admits size (y + depth • A.down) := by
    constructor
    · rw [map_add, map_smul, h.level_down, smul_zero, add_zero, hy.1.1]
    · intro j hj
      rw [map_add, map_smul]
      exact add_nonneg (hy.1.2 j hj) (mul_nonneg hdepth (h.isUpright.side_down_nonneg hj))
  have hmid : y ∈ openSegment ℚ top (y + depth • A.down) := by
    refine ⟨1 / 2, 1 / 2, by norm_num, by norm_num, by norm_num, ?_⟩
    rw [hsum]
    module
  rw [← hy.2 (h.convexHull_subset hmem) hbelow hmid]
  exact hmem

theorem image_eq_extremePoints : pos '' nodes = (A.polyhedron size).extremePoints ℚ := by
  apply subset_antisymm
  · rintro _ ⟨v, hv, rfl⟩
    refine mem_extremePoints_iff_left.2 ⟨h.admits hv, ?_⟩
    intro y hy z hz hseg
    obtain ⟨a, b, ha, hb, -, hab⟩ := hseg
    exact h.eq_of_segment hv hy hz ha hb hab
  · intro y hy
    exact extremePoints_convexHull_subset
      (inter_extremePoints_subset_extremePoints_of_subset h.convexHull_subset
        ⟨h.mem_convexHull_of_extreme hy, hy⟩)

end IsResolution

end Arrangement

end WeightPolyhedron
