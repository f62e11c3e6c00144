import Mathlib.LinearAlgebra.Dual.Lemmas
import Mathlib.Algebra.Order.BigOperators.Group.Finset
import Mathlib.Algebra.Order.Field.Rat
import Mathlib.Tactic.Linarith

/-!
Farkas' lemma over the rational numbers: a vector is a nonnegative combination of finitely many
given ones, or some functional separates it from all of them.
-/

namespace WeightPolyhedron

variable {ι W : Type} [AddCommGroup W] [Module ℚ W]

def InCone (s : Finset ι) (v : ι → W) (y : W) : Prop :=
  ∃ c : ι → ℚ, (∀ i ∈ s, 0 ≤ c i) ∧ y = ∑ i ∈ s, c i • v i

variable [DecidableEq ι]

theorem InCone.insert {k : ι} {s : Finset ι} (hk : k ∉ s) {v : ι → W} {y : W} {c : ℚ} (hc : 0 ≤ c)
    (h : InCone s v (y - c • v k)) : InCone (insert k s) v y := by
  obtain ⟨d, hd, hsum⟩ := h
  have hother {i : ι} (hi : i ∈ s) : Function.update d k c i = d i :=
    Function.update_of_ne (by rintro rfl; exact hk hi) ..
  refine ⟨Function.update d k c, ?_, ?_⟩
  · intro i hi
    rcases Finset.mem_insert.1 hi with rfl | hi
    · simpa using hc
    · exact (hother hi).symm ▸ hd i hi
  · have hrest : ∑ i ∈ s, Function.update d k c i • v i = ∑ i ∈ s, d i • v i :=
      Finset.sum_congr rfl fun i hi => by rw [hother hi]
    rw [Finset.sum_insert hk, hrest, Function.update_self, ← hsum]
    abel

def projectAlong (g : W →ₗ[ℚ] ℚ) (a : W) : W →ₗ[ℚ] W := LinearMap.id - (g a)⁻¹ • g.smulRight a

theorem projectAlong_apply (g : W →ₗ[ℚ] ℚ) (a x : W) :
    projectAlong g a x = x - (g x / g a) • a := by
  simp [projectAlong, smul_smul, div_eq_inv_mul]

/-- One generator after the other is either on the right side of the functional found so far, or is
projected away along with the vector. -/
theorem inCone_or_separated (s : Finset ι) (v : ι → W) (y : W) :
    InCone s v y ∨ ∃ g : W →ₗ[ℚ] ℚ, (∀ i ∈ s, g (v i) ≤ 0) ∧ 0 < g y := by
  induction s using Finset.induction_on generalizing v y with
  | empty =>
    by_cases hy : y = 0
    · exact .inl ⟨0, by simp, by simp [hy]⟩
    · obtain ⟨g, hg⟩ : ∃ g : Module.Dual ℚ W, g y ≠ 0 := by
        by_contra hall
        push Not at hall
        exact hy ((Module.forall_dual_apply_eq_zero_iff ℚ y).1 hall)
      rcases lt_or_gt_of_ne hg with hneg | hpos
      · exact .inr ⟨-g, by simp, by simpa using hneg⟩
      · exact .inr ⟨g, by simp, hpos⟩
  | insert k s hk ih =>
    rcases ih v y with hcone | ⟨g, hg, hgy⟩
    · exact .inl (InCone.insert hk le_rfl (by simpa using hcone))
    by_cases hgk : g (v k) ≤ 0
    · exact .inr ⟨g, by simpa [hgk] using hg, hgy⟩
    have hpos : 0 < g (v k) := not_le.1 hgk
    -- what is left is decided in the kernel of the functional
    rcases ih (fun i => projectAlong g (v k) (v i)) (projectAlong g (v k) y) with ⟨c, hc, hsum⟩
      | ⟨h, hh, hhy⟩
    · have hshare : 0 ≤ g y / g (v k) - ∑ i ∈ s, c i * (g (v i) / g (v k)) := by
        have hle : ∑ i ∈ s, c i * (g (v i) / g (v k)) ≤ 0 := Finset.sum_nonpos fun i hi =>
          mul_nonpos_of_nonneg_of_nonpos (hc i hi)
            (div_nonpos_of_nonpos_of_nonneg (hg i hi) hpos.le)
        have hge : 0 < g y / g (v k) := div_pos hgy hpos
        linarith
      refine .inl (InCone.insert hk hshare ⟨c, hc, ?_⟩)
      simp only [projectAlong_apply, smul_sub, Finset.sum_sub_distrib, smul_smul,
        ← Finset.sum_smul] at hsum
      rw [sub_smul, ← sub_add, hsum]
      abel
    · refine .inr ⟨h ∘ₗ projectAlong g (v k), ?_, hhy⟩
      intro i hi
      rcases Finset.mem_insert.1 hi with rfl | hi
      · simp [projectAlong_apply, div_self hpos.ne']
      · exact hh i hi

end WeightPolyhedron
