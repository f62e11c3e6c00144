import Mathlib
import WeightPolyhedron.Proofs.Exact.Skeleton

/-!
Completeness in exact arithmetic. All that the stored points and rays leave over the weight simplex
lies below convex combinations of vertices, so no vertex of the polyhedron is missed.
-/

namespace WeightPolyhedron

structure IsWeight (p : Nat) (w : List ℚ) : Prop where
  length_eq : w.length = p
  nonneg : ∀ x ∈ w, 0 ≤ x
  sum_eq : w.sum = 1

theorem sum_eq_sum {p : Nat} {w : List ℚ} (hw : w.length = p) :
    w.sum = ∑ i : Fin p, w.getD i 0 := by
  subst hw
  rw [← Fin.sum_univ_getElem]
  exact Finset.sum_congr rfl fun i _ => by simp

namespace FacetLog

variable {log : FacetLog ℚ} {p : Nat} {w : List ℚ} {z : ℚ}

def Allows (log : FacetLog ℚ) (w : List ℚ) (z : ℚ) : Prop :=
  ∀ i f, log.get? i = some f → f.kind ≠ .boundary → 0 ≤ f.evaluate w z

theorem level_of (log : FacetLog ℚ) (hw : w.length = p) (z : ℚ) :
    (log.arrangement p).level (Space.of p w z) = w.sum := by
  rw [level_apply, sum_eq_sum hw]
  rfl

theorem IsSound.kind_eq_boundary_iff {i : FacetId} {f : Facet ℚ} (h : log.IsSound p)
    (hf : log.get? i = some f) : f.kind = .boundary ↔ i < p := by
  constructor
  · intro hkind
    by_contra hi
    rcases (h.reported (not_lt.1 hi) hf).kind with hk | hk <;> rw [hkind] at hk <;> cases hk
  · intro hi
    rw [h.boundary i hi, Facet.boundary?, if_pos hi, Option.some.injEq] at hf
    rw [← hf]

/-- Together with the sides of the simplex, that makes up the polyhedron. -/
theorem IsSound.admits (h : log.IsSound p) (hw : IsWeight p w) (hz : log.Allows w z) :
    (log.arrangement p).Admits log.size (Space.of p w z) := by
  constructor
  · rw [level_of log hw.length_eq, hw.sum_eq]
  · obtain ⟨rfl, hnonneg, -⟩ := hw
    intro j hj
    obtain ⟨f, hf⟩ := exists_get? hj
    by_cases hjp : j < w.length
    · rw [h.side_boundary ⟨j, hjp⟩]
      simpa [Space.of, hjp] using hnonneg _ (List.getElem_mem hjp)
    · rw [side_eq hf, Facet.form_of (h.weightCoefficients_length hf) rfl]
      exact hz j f hf fun hkind => hjp ((h.kind_eq_boundary_iff hf).1 hkind)

/-- Points alone leave some value over each weight. -/
theorem IsSound.exists_allows (h : log.IsSound p)
    (hrays : ∀ i f, log.get? i = some f → f.kind = .ray → 0 ≤ f.evaluate w 0) :
    ∃ z, log.Allows w z := by
  obtain ⟨z, hz⟩ := ((Finset.range log.size).image fun i =>
    ((log.get? i).map fun f => dot f.weightCoefficients w).getD 0).bddBelow
  refine ⟨z, fun i f hf hkind => ?_⟩
  have hvalue := h.valueCoefficient_eq hf
  rw [Facet.evaluate_eq, hvalue]
  by_cases hvertical : f.isVertical
  · have hray : f.kind = .ray := by
      cases hk : f.kind <;> simp_all [Facet.isVertical]
    have hnonneg := hrays i f hf hray
    rw [Facet.evaluate_eq, mul_zero, add_zero] at hnonneg
    rwa [if_pos hvertical, zero_mul, add_zero]
  · have hle := mem_lowerBounds.1 hz _
      (Finset.mem_image_of_mem _ (Finset.mem_range.2 (lt_size_of_get? hf)))
    rw [hf, Option.map_some, Option.getD_some] at hle
    rw [if_neg hvertical]
    linarith

end FacetLog

namespace Mesh

variable {m : Mesh ℚ} {p bound : Nat}

/-- Sums over the stored vertices are sums over the nodes. -/
theorem IsSound.sum_located {M : Type} [AddCommMonoid M] (hm : m.IsSound p bound)
    (hfinite : m.nodeSet.Finite) {a : NodeKey → M} {b : NodeKey × Vertex ℚ → M}
    (hab : ∀ n v, m.vertex? n = some v → b (n, v) = a n) :
    ∑ e ∈ m.located.toFinset, b e = ∑ n ∈ hfinite.toFinset, a n := by
  apply Finset.sum_nbij Prod.fst
  · rintro ⟨n, v⟩ he
    rw [List.mem_toFinset, mem_located] at he
    exact hfinite.mem_toFinset.2 (contains_of_vertex? he)
  · rintro ⟨n, v⟩ hv ⟨k, u⟩ hu (rfl : n = k)
    rw [Finset.mem_coe, List.mem_toFinset, mem_located] at hv hu
    rw [Option.some.inj (hv.symm.trans hu)]
  · intro n hn
    obtain ⟨v, hv⟩ := hm.mem_nodeSet.1 (hfinite.mem_toFinset.1 hn)
    exact ⟨(n, v), by simpa [mem_located] using hv, rfl⟩
  · rintro ⟨n, v⟩ he
    rw [List.mem_toFinset, mem_located] at he
    exact hab n v he

end Mesh

namespace Skeleton

variable {s : Skeleton ℚ} {f : Facet ℚ} {w : List ℚ} {z : ℚ} {objectives : Nat} {point : List ℚ}
  {originating : Option Nat} {rays : List (List ℚ)} {settings : Settings ℚ}

/-- The weight of a stored vertex is a point of the simplex. -/
theorem IsExact.isWeight (h : s.IsExact) {n : NodeKey} {v : Vertex ℚ}
    (hv : s.mesh.vertex? n = some v) : IsWeight s.objectives v.weight := by
  obtain ⟨shift, place, hres⟩ := h.mesh.resolved
  have hnode : n ∈ s.mesh.nodeSet := Mesh.contains_of_vertex? hv
  have hlength := (h.sound.mesh.isShaped hv).weight_length
  refine ⟨hlength, fun x hx => ?_, ?_⟩
  · obtain ⟨j, hj, rfl⟩ := List.getElem_of_mem hx
    have hjp : j < s.objectives := hlength ▸ hj
    have hside := hres.side_nonneg hnode (hjp.trans_le h.sound.log.le_size)
    rw [h.sound.log.side_boundary ⟨j, hjp⟩, Mesh.pointAt_eq hv] at hside
    simpa [Vertex.point, Space.of, hj] using hside
  · have hlevel := hres.level_eq hnode
    rwa [Mesh.pointAt_eq hv, Vertex.point, FacetLog.level_of s.log hlength] at hlevel

/-- A facet that would exclude a point of the polyhedron excludes some vertex as far. -/
theorem IsExact.exists_facetValue_le_form (h : s.IsExact) (hf : f.IsReport s.objectives)
    {y : Space s.objectives} (hy : (s.log.arrangement s.objectives).Admits s.log.size y) :
    ∃ n v, s.mesh.vertex? n = some v ∧ v.facetValue f ≤ f.form s.objectives y := by
  obtain ⟨shift, place, hres⟩ := h.mesh.resolved
  have hdown : (-f.form s.objectives) (s.log.arrangement s.objectives).down ≤ 0 :=
    neg_nonpos.2 (Facet.form_down_nonneg hf.valueCoefficient_eq)
  obtain ⟨n, hn, hle⟩ := hres.exists_le hdown hy
  obtain ⟨v, hv⟩ := h.sound.mesh.mem_nodeSet.1 hn
  refine ⟨n, v, hv, ?_⟩
  rwa [LinearMap.neg_apply, LinearMap.neg_apply, neg_le_neg_iff,
    Mesh.form_pointAt h.sound.mesh hf hv] at hle

theorem IsExact.exists_facetValue_le (h : s.IsExact) (hf : f.IsReport s.objectives)
    (hw : IsWeight s.objectives w) (hz : s.log.Allows w z) :
    ∃ n v, s.mesh.vertex? n = some v ∧ v.facetValue f ≤ f.evaluate w z := by
  obtain ⟨n, v, hv, hle⟩ := h.exists_facetValue_le_form hf (h.sound.log.admits hw hz)
  exact ⟨n, v, hv, by rwa [Facet.form_of hf.weightCoefficients_length hw.length_eq] at hle⟩

/-- No vertex of the polyhedron is missed: every point of it lies below a convex combination of
stored vertices. -/
theorem IsExact.exists_combination (h : s.IsExact) (hw : IsWeight s.objectives w)
    (hz : s.log.Allows w z) : ∃ c : NodeKey → ℚ, (∀ e ∈ s.mesh.located, 0 ≤ c e.1) ∧
      ∑ e ∈ s.mesh.located.toFinset, c e.1 = 1 ∧
        (∀ k < s.objectives,
          w.getD k 0 = ∑ e ∈ s.mesh.located.toFinset, c e.1 * e.2.weight.getD k 0) ∧
          z ≤ ∑ e ∈ s.mesh.located.toFinset, c e.1 * e.2.value := by
  obtain ⟨shift, place, hres⟩ := h.mesh.resolved
  obtain ⟨c, depth, hdepth, hc, hone, hsum⟩ := hres.exists_combination (h.sound.log.admits hw hz)
  refine ⟨c, ?_, ?_, ?_, ?_⟩
  · rintro ⟨n, v⟩ he
    exact hc n (Mesh.contains_of_vertex? (Mesh.mem_located.1 he))
  · rw [← hone]
    exact h.sound.mesh.sum_located hres.finite fun _ _ _ => rfl
  · intro k hk
    have hcoordinate := congrArg (fun y : Space s.objectives => y.1 ⟨k, hk⟩) hsum
    simp only [Prod.fst_add, Prod.fst_sum, Prod.smul_fst, Pi.add_apply, Finset.sum_apply,
      Pi.smul_apply, smul_eq_mul, FacetLog.down_arrangement, Pi.zero_apply, mul_zero,
      add_zero] at hcoordinate
    refine hcoordinate.trans (h.sound.mesh.sum_located hres.finite fun n v hv => ?_).symm
    rw [Mesh.pointAt_eq hv]
    rfl
  · have hvalue := congrArg Prod.snd hsum
    simp only [Prod.snd_add, Prod.snd_sum, Prod.smul_snd, smul_eq_mul,
      FacetLog.down_arrangement] at hvalue
    have hlocated : ∑ e ∈ s.mesh.located.toFinset, c e.1 * e.2.value =
        ∑ n ∈ hres.finite.toFinset, c n * (s.mesh.pointAt s.objectives n).2 :=
      h.sound.mesh.sum_located hres.finite fun n v hv => by
        rw [Mesh.pointAt_eq hv]
        rfl
    rw [hlocated]
    have hz : z = _ := hvalue
    linarith

/-- Where no vertex is left, no weight is. -/
theorem IsExact.exists_ray (h : s.IsExact) (hempty : s.mesh.located = [])
    (hw : IsWeight s.objectives w) :
    ∃ i f, s.log.get? i = some f ∧ f.kind = .ray ∧ f.evaluate w 0 < 0 := by
  by_contra hnone
  push Not at hnone
  obtain ⟨z, hz⟩ := h.sound.log.exists_allows hnone
  obtain ⟨c, -, hone, -⟩ := h.exists_combination hw hz
  simp [hempty] at hone

/-- After any history of requests, every weight of the simplex with a value over it that all stored
points and rays leave lies below a convex combination of the vertices; and once no vertex is left,
every weight of the simplex is excluded by a stored ray. -/
theorem complete_after_build (h : build objectives point originating rays settings = .ok s)
    (hmargin : 0 ≤ settings.epsilon) (requests : List (Request ℚ)) :
    let t := s.after requests
    (∀ w z, IsWeight objectives w → t.log.Allows w z →
      ∃ c : NodeKey → ℚ, (∀ e ∈ t.mesh.located, 0 ≤ c e.1) ∧
        ∑ e ∈ t.mesh.located.toFinset, c e.1 = 1 ∧
          (∀ k < objectives,
            w.getD k 0 = ∑ e ∈ t.mesh.located.toFinset, c e.1 * e.2.weight.getD k 0) ∧
            z ≤ ∑ e ∈ t.mesh.located.toFinset, c e.1 * e.2.value) ∧
      (t.mesh.located = [] → ∀ w, IsWeight objectives w →
        ∃ i f, t.log.get? i = some f ∧ f.kind = .ray ∧ f.evaluate w 0 < 0) := by
  have ht := isExact_after h hmargin requests
  obtain ⟨-, hobj, -⟩ := isSound_after h requests
  intro t
  constructor
  · intro w z hw hz
    rw [← hobj] at hw ⊢
    exact ht.exists_combination hw hz
  · intro hempty w hw
    exact ht.exists_ray hempty (hobj ▸ hw)

theorem complete_after_two_reports : ∃ s : Skeleton ℚ,
    build 2 [3, 4] (some 0) [[1, -1]] ⟨0, true, .immediate⟩ = .ok s ∧
      ∃ c : NodeKey → ℚ,
        ∑ e ∈ (s.after [.nextWeight, .point [1, 6]]).mesh.located.toFinset, c e.1 = 1 ∧
          7 / 2 ≤ ∑ e ∈ (s.after [.nextWeight, .point [1, 6]]).mesh.located.toFinset,
            c e.1 * e.2.value := by
  have hall : ((build (α := ℚ) 2 [3, 4] (some 0) [[1, -1]] ⟨0, true, .immediate⟩).toOption.map
      fun s => (s.after [.nextWeight, .point [1, 6]]).log.facets.all fun f =>
        decide (f.kind = .boundary ∨ 0 ≤ f.evaluate [1/2, 1/2] (7/2))) = some true := by
    decide +kernel
  cases hs : build (α := ℚ) 2 [3, 4] (some 0) [[1, -1]] ⟨0, true, .immediate⟩ with
  | error e => simp [hs, Except.toOption] at hall
  | ok s =>
    rw [hs] at hall
    have hallows : (s.after [.nextWeight, .point [1, 6]]).log.Allows [1/2, 1/2] (7/2) := by
      intro i f hf hkind
      have hmem := Array.all_eq_true'.1 (Option.some.inj hall) f (Array.mem_of_getElem? hf)
      exact (of_decide_eq_true hmem).resolve_left hkind
    have hweight : IsWeight 2 [1/2, 1/2] := ⟨rfl, by norm_num, by norm_num⟩
    obtain ⟨c, -, hone, -, hle⟩ := (complete_after_build hs le_rfl _).1 _ _ hweight hallows
    exact ⟨s, rfl, c, hone, hle⟩

end Skeleton

end WeightPolyhedron
