import Mathlib
import WeightPolyhedron.Proofs.Log
import WeightPolyhedron.Proofs.Vertex
import WeightPolyhedron.Proofs.Geometry.Resolution

/-!
Exact arithmetic. Over the rational numbers the value of a facet is a linear form of the weight and
the value of a vertex, and the facets of a log are an arrangement of half-spaces.
-/

namespace WeightPolyhedron

abbrev Space (p : Nat) : Type := (Fin p → ℚ) × ℚ

def dot (as ws : List ℚ) : ℚ := (List.zipWith (· * ·) as ws).sum

theorem dot_eq_sum {p : Nat} {as ws : List ℚ} (has : as.length = p) (hws : ws.length = p) :
    dot as ws = ∑ i : Fin p, as.getD i 0 * ws.getD i 0 := by
  induction p generalizing as ws with
  | zero => simp [dot, List.length_eq_zero_iff.1 has]
  | succ p ih =>
    obtain ⟨a, as, rfl⟩ := List.exists_cons_of_length_eq_add_one has
    obtain ⟨w, ws, rfl⟩ := List.exists_cons_of_length_eq_add_one hws
    have htail : dot as ws = _ := ih (by simpa using has) (by simpa using hws)
    rw [Fin.sum_univ_succ]
    simpa [dot] using htail

namespace Facet

variable {f : Facet ℚ} {p : Nat} {w : List ℚ} {z : ℚ}

theorem evaluate_eq (f : Facet ℚ) (w : List ℚ) (z : ℚ) :
    f.evaluate w z = dot f.weightCoefficients w + f.valueCoefficient * z := by
  unfold evaluate
  generalize f.weightCoefficients = as
  generalize f.valueCoefficient * z = start
  induction as generalizing w start with
  | nil => simp [dot]
  | cons a as ih =>
    cases w with
    | nil => simp [dot]
    | cons x w =>
      simp only [List.zip_cons_cons, List.foldl_cons, ih]
      simp only [dot, List.zipWith_cons_cons, List.sum_cons, Scalar.mulAdd]
      ring

theorem ofVector_of_ne_nil {values : List ℚ} {last : ℚ} {kind : Kind} (h : values ≠ []) :
    ofVector values last kind = .ok ⟨values ++ [last], kind⟩ := by
  have hnone : values.zipIdx.find? (fun (v, _) => !Scalar.isFinite v) = none :=
    List.find?_eq_none.2 fun _ _ => by simp [Scalar.isFinite]
  simp [ofVector, h, hnone]

def form (p : Nat) (f : Facet ℚ) : Space p →ₗ[ℚ] ℚ where
  toFun y := ∑ i : Fin p, f.weightCoefficients.getD i 0 * y.1 i + f.valueCoefficient * y.2
  map_add' x y := by
    simp only [Prod.fst_add, Prod.snd_add, Pi.add_apply, mul_add, Finset.sum_add_distrib]
    ring
  map_smul' c y := by
    simp only [Prod.smul_fst, Prod.smul_snd, Pi.smul_apply, smul_eq_mul, mul_left_comm _ c,
      ← Finset.mul_sum, RingHom.id_apply, mul_add]

theorem form_apply (f : Facet ℚ) (y : Space p) :
    f.form p y = ∑ i : Fin p, f.weightCoefficients.getD i 0 * y.1 i + f.valueCoefficient * y.2 :=
      rfl

end Facet

def Space.total (p : Nat) : Space p →ₗ[ℚ] ℚ where
  toFun y := ∑ i, y.1 i
  map_add' x y := by simp only [Prod.fst_add, Pi.add_apply, Finset.sum_add_distrib]
  map_smul' c y := by
    simp only [Prod.smul_fst, Pi.smul_apply, smul_eq_mul, ← Finset.mul_sum, RingHom.id_apply]

@[simp] theorem Space.total_apply {p : Nat} (y : Space p) : Space.total p y = ∑ i, y.1 i := rfl

def Space.of (p : Nat) (w : List ℚ) (z : ℚ) : Space p := (fun i => w.getD i 0, z)

theorem Facet.form_of {f : Facet ℚ} {p : Nat} {w : List ℚ} (hf : f.weightCoefficients.length = p)
    (hw : w.length = p) (z : ℚ) : f.form p (Space.of p w z) = f.evaluate w z := by
  rw [form_apply, evaluate_eq, dot_eq_sum hf hw]
  rfl

theorem Facet.form_down {f : Facet ℚ} {p : Nat}
    (hf : f.valueCoefficient = if f.isVertical then 0 else -1) :
    f.form p (0, -1) = if f.isVertical then 0 else 1 := by
  rw [form_apply, hf]
  split_ifs <;> simp

theorem Facet.form_down_nonneg {f : Facet ℚ} {p : Nat}
    (hf : f.valueCoefficient = if f.isVertical then 0 else -1) : 0 ≤ f.form p (0, -1) := by
  rw [form_down hf]
  split_ifs <;> simp

namespace FacetLog

variable {log : FacetLog ℚ} {f : Facet ℚ} {p j : Nat}

def arrangement (log : FacetLog ℚ) (p : Nat) : Arrangement (Space p) where
  level := Space.total p
  down := (0, -1)
  side j := ((log.get? j).map (Facet.form p)).getD 0
  vertical := log.isVertical

@[simp] theorem down_arrangement (log : FacetLog ℚ) (p : Nat) :
    (log.arrangement p).down = (0, -1) := rfl

theorem level_apply (log : FacetLog ℚ) (y : Space p) : (log.arrangement p).level y = ∑ i, y.1 i :=
  rfl

theorem side_eq (hf : log.get? j = some f) : (log.arrangement p).side j = f.form p := by
  simp [arrangement, hf]

theorem IsSound.weightCoefficients_length (h : log.IsSound p) (hf : log.get? j = some f) :
    f.weightCoefficients.length = p := by
  by_cases hj : j < p
  · rw [h.boundary j hj, Facet.boundary?, if_pos hj, Option.some.injEq] at hf
    simp [← hf, Facet.weightCoefficients, Facet.unitVector]
  · exact (h.reported (not_lt.1 hj) hf).weightCoefficients_length

theorem IsSound.valueCoefficient_eq (h : log.IsSound p) (hf : log.get? j = some f) :
    f.valueCoefficient = if f.isVertical then 0 else -1 := by
  by_cases hj : j < p
  · rw [h.boundary j hj, Facet.boundary?, if_pos hj, Option.some.injEq] at hf
    simp [← hf, Facet.valueCoefficient, Facet.isVertical]
  · exact (h.reported (not_lt.1 hj) hf).valueCoefficient_eq

theorem IsSound.side_down (h : log.IsSound p) (hf : log.get? j = some f) :
    (log.arrangement p).side j (log.arrangement p).down = if f.isVertical then 0 else 1 := by
  rw [side_eq hf]
  exact Facet.form_down (h.valueCoefficient_eq hf)

theorem IsSound.isUpright (h : log.IsSound p) : (log.arrangement p).IsUpright log.size := by
  refine ⟨by simp [arrangement], by simp [arrangement], ?_, ?_⟩
  · intro j hj hvertical
    obtain ⟨f, hf⟩ := exists_get? hj
    rw [h.side_down hf, if_pos ((isVertical_of_get? hf).symm.trans hvertical)]
  · intro j hj hvertical
    obtain ⟨f, hf⟩ := exists_get? hj
    rw [h.side_down hf, if_neg fun hc => hvertical ((isVertical_of_get? hf).trans hc)]
    exact one_pos

theorem agreesBelow_snoc (log : FacetLog ℚ) (f : Facet ℚ) (p : Nat) :
    (log.arrangement p).AgreesBelow ((log.snoc f).arrangement p) log.size where
  level_eq := rfl
  down_eq := rfl
  side_eq hj := by simp only [arrangement, get?_snoc_of_lt hj]
  vertical_eq hj := (isVertical_snoc_of_lt hj).symm

end FacetLog

namespace Vertex

variable {v a b w : Vertex ℚ} {f : Facet ℚ} {p : Nat} {id : FacetId}

def point (p : Nat) (v : Vertex ℚ) : Space p := Space.of p v.weight v.value

theorem form_point (hf : f.weightCoefficients.length = p) (hv : v.weight.length = p) :
    f.form p (v.point p) = v.facetValue f :=
  Facet.form_of hf hv v.value

theorem blend_eq (t x y : ℚ) : blend t x y = t * x + (1 - t) * y := rfl

/-- A new vertex lies where the facet is tight on the segment between the ends of the edge. -/
theorem point_onEdge (h : onEdge a b id f = .ok w) (ha : a.weight.length = p)
    (hb : b.weight.length = p) : w.point p = a.point p +
      (a.facetValue f / (a.facetValue f - b.facetValue f)) • (b.point p - a.point p) := by
  obtain ⟨hneg, hnonneg, rfl⟩ := onEdge_eq_ok h
  have hne : b.facetValue f - a.facetValue f ≠ 0 := by linarith
  have hne' : a.facetValue f - b.facetValue f ≠ 0 := by linarith
  have hblend (x y : ℚ) : blend (share (a.facetValue f) (b.facetValue f)) x y =
      x + a.facetValue f / (a.facetValue f - b.facetValue f) * (y - x) := by
    rw [blend_eq, share]
    field_simp
    ring
  refine Prod.ext (funext fun i => ?_) ?_
  · have hia : i.val < a.weight.length := ha.symm ▸ i.isLt
    have hib : i.val < b.weight.length := hb.symm ▸ i.isLt
    simp [point, Space.of, hblend, hia, hib]
  · simp [point, Space.of, hblend]

/-- A vertex descends to where the facet is tight below it. -/
theorem point_descend {log : FacetLog ℚ} (h : v.descend id f log = .ok w)
    (hf : f.valueCoefficient = -1) :
    w.point p = v.point p - v.facetValue f • ((0, -1) : Space p) := by
  obtain ⟨-, replaced, -, -, value, hvalue, rfl⟩ := descend_eq_ok h
  have heq : value = v.value + v.facetValue f := by
    have hvalue : some (-f.evaluate v.weight 0 / f.valueCoefficient) = some value := by
      simpa [Facet.tightValue?, hf] using hvalue
    rw [← Option.some.inj hvalue, hf, facetValue, Facet.evaluate_eq, Facet.evaluate_eq, hf]
    ring
  refine Prod.ext (funext fun i => ?_) ?_
  · simp [point, Space.of]
  · simp [point, Space.of, heq]

end Vertex

end WeightPolyhedron
