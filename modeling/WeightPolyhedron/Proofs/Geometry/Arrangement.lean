import Mathlib.Algebra.BigOperators.GroupWithZero.Action
import Mathlib.Algebra.Module.Submodule.LinearMap
import Mathlib.Algebra.Order.BigOperators.Group.Finset
import Mathlib.Algebra.Order.Field.Rat
import Mathlib.Data.Finset.Card
import Mathlib.Data.Finset.Powerset
import Mathlib.Data.Prod.Lex
import Mathlib.Data.Set.Finite.Lattice
import Mathlib.Tactic.FieldSimp
import Mathlib.Tactic.Linarith
import Mathlib.Algebra.Module.Rat
import Mathlib.Algebra.NoZeroSMulDivisors.Basic
import Mathlib.Data.Set.Finite.Lemmas
import Mathlib.Tactic.Abel

/-!
Simple arrangements of half-spaces. The polyhedron is the part of the slice of level one that lies
in all of them; it is unbounded in one direction only. A node stands for a point where as many
half-spaces as the slice has dimensions are tight. In a simple arrangement each of its edges leads
to another node or runs down, and then nodes see the whole polyhedron: what no edge improves is
optimal, and the nodes beyond a new half-space are connected.
-/

namespace WeightPolyhedron

structure Arrangement (W : Type) [AddCommGroup W] [Module ℚ W] where
  level : W →ₗ[ℚ] ℚ
  down : W
  side : ℕ → W →ₗ[ℚ] ℚ
  vertical : ℕ → Bool

namespace Arrangement

variable {ι W : Type} [AddCommGroup W] [Module ℚ W]

def Admits (A : Arrangement W) (size : ℕ) (y : W) : Prop :=
  A.level y = 1 ∧ ∀ j < size, 0 ≤ A.side j y

/-- The way down stays in the slice. It is parallel to the vertical half-spaces and leads into the
others. -/
structure IsUpright (A : Arrangement W) (size : ℕ) : Prop where
  level_down : A.level A.down = 0
  down_ne : A.down ≠ 0
  side_down : ∀ {j}, j < size → A.vertical j → A.side j A.down = 0
  side_down_pos : ∀ {j}, j < size → ¬ A.vertical j → 0 < A.side j A.down

/-- Nodes with their tight half-spaces and their points form the skeleton of a simple polyhedron. -/
structure IsSimple (A : Arrangement W) (p size : ℕ) (nodes : Set ι) (F : ι → Finset ℕ) (x : ι → W) :
    Prop where
  upright : A.IsUpright size
  level_eq : ∀ {v}, v ∈ nodes → A.level (x v) = 1
  facets_lt : ∀ {v j}, v ∈ nodes → j ∈ F v → j < size
  nonneg : ∀ {v j}, v ∈ nodes → j < size → 0 ≤ A.side j (x v)
  tight_iff : ∀ {v j}, v ∈ nodes → j < size → (A.side j (x v) = 0 ↔ j ∈ F v)
  card_eq : ∀ {v}, v ∈ nodes → (F v).card = p
  spans : ∀ {v d}, v ∈ nodes → A.level d = 0 → (∀ j ∈ F v, A.side j d = 0) → d = 0
  inj : ∀ {v u}, v ∈ nodes → u ∈ nodes → F v = F u → v = u
  ends : ∀ {v i}, v ∈ nodes → i ∈ F v → (∀ j ∈ (F v).erase i, A.vertical j) ∨
    ∃ u ∈ nodes, u ≠ v ∧ (F v).erase i ⊆ F u
  inhabited : ∀ {y}, A.Admits size y → nodes.Nonempty

/-- Nodes with all half-spaces but one in common. -/
def Adjacent (p : ℕ) (F : ι → Finset ℕ) (v u : ι) : Prop := (F v ∩ F u).card + 1 = p

/-- A direction in which an edge leaves a node and one of its half-spaces. -/
inductive IsEdge (A : Arrangement W) (nodes : Set ι) (F : ι → Finset ℕ) (x : ι → W)
    (v : ι) (i : ℕ) :
    W → Prop
  | vertical (h : ∀ j ∈ (F v).erase i, A.vertical j) : IsEdge A nodes F x v i A.down
  | toward {u : ι} (hu : u ∈ nodes) (hne : u ≠ v) (hsub : (F v).erase i ⊆ F u) :
    IsEdge A nodes F x v i (x u - x v)

variable {A : Arrangement W} {p size i : ℕ} {nodes : Set ι} {F : ι → Finset ℕ} {x : ι → W}
  {v u w : ι} {y d e : W} {G : Finset ℕ} {g k : W →ₗ[ℚ] ℚ}

theorem IsUpright.side_down_nonneg (h : A.IsUpright size) {j : ℕ} (hj : j < size) :
    0 ≤ A.side j A.down := by
  by_cases hvertical : A.vertical j
  · exact (h.side_down hj hvertical).ge
  · exact (h.side_down_pos hj hvertical).le

theorem adjacent_comm : Adjacent p F v u ↔ Adjacent p F u v := by
  rw [Adjacent, Adjacent, Finset.inter_comm]

/-- The distances from some half-spaces, summed up. -/
def slack (A : Arrangement W) (H : Finset ℕ) : W →ₗ[ℚ] ℚ := ∑ j ∈ H, A.side j

theorem slack_apply (A : Arrangement W) (H : Finset ℕ) (y : W) :
    A.slack H y = ∑ j ∈ H, A.side j y :=
  LinearMap.sum_apply ..

namespace IsSimple

theorem finite (h : A.IsSimple p size nodes F x) : nodes.Finite := by
  refine Set.Finite.of_injOn (t := ↑(Finset.range size).powerset) (f := F) ?_
    (fun v hv u hu => h.inj hv hu) (Finset.finite_toSet _)
  intro v hv
  rw [Finset.mem_coe, Finset.mem_powerset]
  exact fun j hj => Finset.mem_range.2 (h.facets_lt hv hj)

theorem side_eq_zero (h : A.IsSimple p size nodes F x) (hv : v ∈ nodes) {j : ℕ} (hj : j ∈ F v) :
    A.side j (x v) = 0 :=
  (h.tight_iff hv (h.facets_lt hv hj)).2 hj

theorem admits (h : A.IsSimple p size nodes F x) (hv : v ∈ nodes) : A.Admits size (x v) :=
  ⟨h.level_eq hv, fun _ hj => h.nonneg hv hj⟩

theorem exists_edge (h : A.IsSimple p size nodes F x) (hv : v ∈ nodes) (hi : i ∈ F v) :
    ∃ d, A.IsEdge nodes F x v i d := by
  rcases h.ends hv hi with hvertical | ⟨u, hu, hne, hsub⟩
  · exact ⟨_, .vertical hvertical⟩
  · exact ⟨_, .toward hu hne hsub⟩

theorem level_edge (h : A.IsSimple p size nodes F x) (hv : v ∈ nodes)
    (hd : A.IsEdge nodes F x v i d) : A.level d = 0 := by
  cases hd with
  | vertical => exact h.upright.level_down
  | toward hu => rw [map_sub, h.level_eq hu, h.level_eq hv, sub_self]

theorem side_edge_eq_zero (h : A.IsSimple p size nodes F x) (hv : v ∈ nodes)
    (hd : A.IsEdge nodes F x v i d) {j : ℕ} (hj : j ∈ (F v).erase i) : A.side j d = 0 := by
  have hjv := Finset.mem_of_mem_erase hj
  cases hd with
  | vertical hvertical => exact h.upright.side_down (h.facets_lt hv hjv) (hvertical j hj)
  | toward hu hne hsub =>
    rw [map_sub, h.side_eq_zero hu (hsub hj), h.side_eq_zero hv hjv, sub_self]

theorem side_edge_pos (h : A.IsSimple p size nodes F x) (hv : v ∈ nodes) (hi : i ∈ F v)
    (hd : A.IsEdge nodes F x v i d) : 0 < A.side i d := by
  have hzero {j : ℕ} (hj : j ∈ F v) (hij : A.side i d = 0) : A.side j d = 0 := by
    by_cases hji : j = i
    · exact hji ▸ hij
    · exact h.side_edge_eq_zero hv hd (Finset.mem_erase.2 ⟨hji, hj⟩)
  have hlt := h.facets_lt hv hi
  cases hd with
  | vertical =>
    refine lt_of_le_of_ne (h.upright.side_down_nonneg hlt) fun hij => h.upright.down_ne ?_
    exact h.spans hv h.upright.level_down fun j hj => hzero hj hij.symm
  | @toward u hu hne hsub =>
    rw [map_sub, h.side_eq_zero hv hi, sub_zero]
    refine lt_of_le_of_ne (h.nonneg hu hlt) fun hij => hne ?_
    have hiu := (h.tight_iff hu hlt).1 hij.symm
    -- all half-spaces of the node would be tight at the other one
    have hall : F v ⊆ F u := by
      intro j hj
      by_cases hji : j = i
      · exact hji ▸ hiu
      · exact hsub (Finset.mem_erase.2 ⟨hji, hj⟩)
    exact (h.inj hv hu (Finset.eq_of_subset_of_card_le hall
      (by rw [h.card_eq hv, h.card_eq hu]))).symm

/-- The edges of a node are a basis of the directions of the slice. -/
theorem sub_eq_sum (h : A.IsSimple p size nodes F x) (hv : v ∈ nodes) {d : ℕ → W}
    (hd : ∀ i ∈ F v, A.IsEdge nodes F x v i (d i)) (hy : A.level y = 1) :
    y - x v = ∑ i ∈ F v, (A.side i y / A.side i (d i)) • d i := by
  rw [← sub_eq_zero]
  refine h.spans hv ?_ fun j hj => ?_
  · have hsum : ∑ i ∈ F v, A.level ((A.side i y / A.side i (d i)) • d i) = 0 :=
      Finset.sum_eq_zero fun i hi => by rw [map_smul, h.level_edge hv (hd i hi), smul_zero]
    rw [map_sub, map_sub, map_sum, hsum, hy, h.level_eq hv, sub_self, sub_zero]
  · have hsum : ∑ i ∈ F v, A.side j ((A.side i y / A.side i (d i)) • d i) = A.side j y := by
      rw [Finset.sum_eq_single_of_mem j hj fun i hi hij => ?_]
      · rw [map_smul, smul_eq_mul, div_mul_cancel₀ _ (h.side_edge_pos hv hj (hd j hj)).ne']
      · rw [map_smul, h.side_edge_eq_zero hv (hd i hi) (Finset.mem_erase.2 ⟨hij.symm, hj⟩),
          smul_zero]
    rw [map_sub, map_sub, map_sum, hsum, h.side_eq_zero hv hj, sub_zero, sub_self]

theorem exists_edges (h : A.IsSimple p size nodes F x) (hv : v ∈ nodes) :
    ∃ d : ℕ → W, ∀ i ∈ F v, A.IsEdge nodes F x v i (d i) := by
  have hex (i : ℕ) : ∃ d, i ∈ F v → A.IsEdge nodes F x v i d := by
    by_cases hi : i ∈ F v
    · exact (h.exists_edge hv hi).imp fun _ hd _ => hd
    · exact ⟨0, fun hc => absurd hc hi⟩
  choose d hd using hex
  exact ⟨d, hd⟩

/-- A functional that falls along no edge of a node is least there. -/
theorem le_of_edges (h : A.IsSimple p size nodes F x) (hv : v ∈ nodes)
    (hg : ∀ i ∈ F v, ∀ d, A.IsEdge nodes F x v i d → 0 ≤ g d) (hy : A.Admits size y) :
    g (x v) ≤ g y := by
  obtain ⟨d, hd⟩ := h.exists_edges hv
  have hsum := congrArg g (h.sub_eq_sum hv hd hy.1)
  rw [map_sub, map_sum] at hsum
  have hnonneg : 0 ≤ ∑ i ∈ F v, g ((A.side i y / A.side i (d i)) • d i) := by
    apply Finset.sum_nonneg
    intro i hi
    rw [map_smul, smul_eq_mul]
    have hpos := h.side_edge_pos hv hi (hd i hi)
    exact mul_nonneg (div_nonneg (hy.2 i (h.facets_lt hv hi)) hpos.le) (hg i hi _ (hd i hi))
  linarith

/-- Where a functional that falls along no edge of a node is least again, a second one is not below
its value at the node, if it falls along no edge along which the first one is constant. -/
theorem le_of_lex_edges (h : A.IsSimple p size nodes F x) (hv : v ∈ nodes)
    (hg : ∀ i ∈ F v, ∀ d, A.IsEdge nodes F x v i d → 0 < g d ∨ (g d = 0 ∧ 0 ≤ k d))
    (hy : A.Admits size y) (hle : g y ≤ g (x v)) : k (x v) ≤ k y := by
  obtain ⟨d, hd⟩ := h.exists_edges hv
  have hcoeff {i : ℕ} (hi : i ∈ F v) : 0 ≤ A.side i y / A.side i (d i) :=
    div_nonneg (hy.2 i (h.facets_lt hv hi)) (h.side_edge_pos hv hi (hd i hi)).le
  have hsum (f : W →ₗ[ℚ] ℚ) :
      f y - f (x v) = ∑ i ∈ F v, A.side i y / A.side i (d i) * f (d i) := by
    simpa only [map_sub, map_sum, map_smul, smul_eq_mul] using congrArg f (h.sub_eq_sum hv hd hy.1)
  have hgnonneg : ∀ i ∈ F v, 0 ≤ A.side i y / A.side i (d i) * g (d i) := by
    intro i hi
    rcases hg i hi _ (hd i hi) with hpos | ⟨hzero, -⟩
    · exact mul_nonneg (hcoeff hi) hpos.le
    · rw [hzero, mul_zero]
  have hgsum : ∑ i ∈ F v, A.side i y / A.side i (d i) * g (d i) = 0 :=
    le_antisymm (by linarith [hsum g]) (Finset.sum_nonneg hgnonneg)
  have hksum : 0 ≤ ∑ i ∈ F v, A.side i y / A.side i (d i) * k (d i) := by
    apply Finset.sum_nonneg
    intro i hi
    rcases hg i hi _ (hd i hi) with hpos | ⟨-, hkd⟩
    · have hproduct := (Finset.sum_eq_zero_iff_of_nonneg hgnonneg).1 hgsum i hi
      rcases mul_eq_zero.1 hproduct with hzero | hzero
      · rw [hzero, zero_mul]
      · exact absurd hzero hpos.ne'
    · exact mul_nonneg (hcoeff hi) hkd
  linarith [hsum k]

/-- A functional that does not grow downwards is bounded by its values at the nodes. -/
theorem exists_le (h : A.IsSimple p size nodes F x) (hdown : g A.down ≤ 0)
    (hy : A.Admits size y) : ∃ v ∈ nodes, g y ≤ g (x v) := by
  obtain ⟨v, hv, hmax⟩ := Set.exists_max_image nodes (fun v => g (x v)) h.finite (h.inhabited hy)
  refine ⟨v, hv, ?_⟩
  have hle := h.le_of_edges (g := -g) hv ?_ hy
  · simpa using hle
  · intro i hi d hd
    cases hd with
    | vertical => simpa using hdown
    | @toward u hu =>
      have := hmax u hu
      simpa using this

theorem exists_erase (h : A.IsSimple p size nodes F x) (hv : v ∈ nodes) (hG : G.card + 1 = p)
    (hsub : G ⊆ F v) : ∃ i ∈ F v, (F v).erase i = G := by
  obtain ⟨i, hi, heq⟩ := Finset.exists_eq_insert_iff.2 ⟨hsub, hG.trans (h.card_eq hv).symm⟩
  exact ⟨i, heq ▸ Finset.mem_insert_self i G, heq ▸ Finset.erase_insert hi⟩

/-- What all half-spaces of an edge are parallel to is a multiple of its direction. -/
theorem eq_smul (h : A.IsSimple p size nodes F x) (hv : v ∈ nodes) (hi : i ∈ F v)
    (hd : A.IsEdge nodes F x v i d) (hlevel : A.level e = 0)
    (he : ∀ j ∈ (F v).erase i, A.side j e = 0) : e = (A.side i e / A.side i d) • d := by
  rw [← sub_eq_zero]
  refine h.spans hv ?_ fun j hj => ?_
  · rw [map_sub, map_smul, h.level_edge hv hd, hlevel, smul_zero, sub_zero]
  · by_cases hji : j = i
    · rw [hji, map_sub, map_smul, smul_eq_mul,
        div_mul_cancel₀ _ (h.side_edge_pos hv hi hd).ne', sub_self]
    · have hj' := Finset.mem_erase.2 ⟨hji, hj⟩
      rw [map_sub, map_smul, h.side_edge_eq_zero hv hd hj', he j hj', smul_zero, sub_zero]

/-- An edge has only one direction. -/
theorem exists_smul (h : A.IsSimple p size nodes F x) (hv : v ∈ nodes) (hi : i ∈ F v)
    (hd : A.IsEdge nodes F x v i d) (he : A.IsEdge nodes F x v i e) : ∃ c : ℚ, 0 < c ∧ e = c • d :=
  ⟨_, div_pos (h.side_edge_pos hv hi he) (h.side_edge_pos hv hi hd),
    h.eq_smul hv hi hd (h.level_edge hv he) fun _ hj => h.side_edge_eq_zero hv he hj⟩

/-- The vertical half-spaces of a node on a vertical edge. -/
theorem filter_vertical (h : A.IsSimple p size nodes F x) (hv : v ∈ nodes) (hi : i ∈ F v)
    (hvertical : ∀ j ∈ (F v).erase i, A.vertical j) :
    (F v).filter (A.vertical ·) = (F v).erase i := by
  have hnot : ¬ A.vertical i := by
    intro hc
    have hpos := h.side_edge_pos hv hi (.vertical hvertical)
    rw [h.upright.side_down (h.facets_lt hv hi) hc] at hpos
    exact lt_irrefl _ hpos
  ext j
  rw [Finset.mem_filter, Finset.mem_erase]
  constructor
  · intro hs
    obtain ⟨hj, hjvertical⟩ := hs
    refine ⟨?_, hj⟩
    rintro rfl
    exact hnot hjvertical
  · exact fun hj => ⟨hj.2, hvertical j (Finset.mem_erase.2 hj)⟩

/-- The vertical line through a node has no other node. -/
theorem eq_of_vertical (h : A.IsSimple p size nodes F x) (hG : G.card + 1 = p)
    (hvertical : ∀ j ∈ G, A.vertical j) (hv : v ∈ nodes) (hu : u ∈ nodes) (hGv : G ⊆ F v)
    (hGu : G ⊆ F u) : v = u := by
  by_contra hne
  have hline {v u : ι} (hv : v ∈ nodes) (hu : u ∈ nodes) (hGv : G ⊆ F v) (hGu : G ⊆ F u)
      (hne : v ≠ u) : ∃ c : ℚ, 0 < c ∧ x u - x v = c • A.down := by
    obtain ⟨i, hi, hGi⟩ := h.exists_erase hv hG hGv
    exact h.exists_smul hv hi (.vertical (hGi ▸ hvertical)) (.toward hu (Ne.symm hne) (hGi ▸ hGu))
  obtain ⟨c, hc, hvu⟩ := hline hv hu hGv hGu hne
  obtain ⟨c', hc', huv⟩ := hline hu hv hGu hGv (Ne.symm hne)
  have hsum : (c + c') • A.down = 0 := by
    rw [add_smul, ← hvu, ← huv]
    abel
  rcases smul_eq_zero.1 hsum with hzero | hzero
  · linarith
  · exact h.upright.down_ne hzero

/-- At most two nodes lie on a line. -/
theorem eq_or_eq_of_subset (h : A.IsSimple p size nodes F x) (hG : G.card + 1 = p)
    (hv : v ∈ nodes) (hu : u ∈ nodes) (hw : w ∈ nodes) (hGv : G ⊆ F v) (hGu : G ⊆ F u)
    (hGw : G ⊆ F w) (hvu : v ≠ u) : w = v ∨ w = u := by
  by_contra hne
  obtain ⟨hwv, hwu⟩ := not_or.1 hne
  have hline {a b c : ι} (ha : a ∈ nodes) (hb : b ∈ nodes) (hc : c ∈ nodes) (hGa : G ⊆ F a)
      (hGb : G ⊆ F b) (hGc : G ⊆ F c) (hba : b ≠ a) (hca : c ≠ a) :
      ∃ r : ℚ, 0 < r ∧ x c - x a = r • (x b - x a) := by
    obtain ⟨i, hi, hGi⟩ := h.exists_erase ha hG hGa
    exact h.exists_smul ha hi (.toward hb hba (hGi ▸ hGb)) (.toward hc hca (hGi ▸ hGc))
  obtain ⟨i, hi, hGi⟩ := h.exists_erase hv hG hGv
  have hpos : 0 < A.side i (x u) := by
    have := h.side_edge_pos hv hi (.toward hu (Ne.symm hvu) (hGi ▸ hGu))
    rwa [map_sub, h.side_eq_zero hv hi, sub_zero] at this
  -- each of the three nodes would be an end of the segment that the other two span
  obtain ⟨r, hr, hrw⟩ := hline hv hu hw hGv hGu hGw (Ne.symm hvu) hwv
  obtain ⟨s, hs, hsw⟩ := hline hu hv hw hGu hGv hGw hvu hwu
  obtain ⟨t, ht, htv⟩ := hline hw hu hv hGw hGu hGv (Ne.symm hwu) (Ne.symm hwv)
  have hzero := h.side_eq_zero hv hi
  have hrw := congrArg (A.side i) hrw
  have hsw := congrArg (A.side i) hsw
  have htv := congrArg (A.side i) htv
  simp only [map_sub, map_smul, smul_eq_mul, hzero] at hrw hsw htv
  have hbefore : A.side i (x w) < A.side i (x u) := by nlinarith
  have hafter : 0 < t * (A.side i (x u) - A.side i (x w)) := mul_pos ht (by linarith)
  have hwpos : 0 < r * A.side i (x u) := mul_pos hr hpos
  linarith

theorem adjacent_of_erase_subset (h : A.IsSimple p size nodes F x) (hv : v ∈ nodes) (hu : u ∈ nodes)
    (hne : u ≠ v) (hi : i ∈ F v) (hsub : (F v).erase i ⊆ F u) : Adjacent p F v u := by
  have hlt : (F v ∩ F u).card < p := by
    rw [← h.card_eq hv]
    refine Finset.card_lt_card (Finset.inter_subset_left.ssubset_of_ne fun heq => hne ?_)
    have hall : F v ⊆ F u := Finset.inter_eq_left.1 heq
    exact (h.inj hv hu (Finset.eq_of_subset_of_card_le hall
      (by rw [h.card_eq hv, h.card_eq hu]))).symm
  have hle : p - 1 ≤ (F v ∩ F u).card := by
    rw [← h.card_eq hv, ← Finset.card_erase_of_mem hi]
    exact Finset.card_le_card (Finset.subset_inter (Finset.erase_subset i _) hsub)
  unfold Adjacent
  omega

theorem Adjacent.ne (h : A.IsSimple p size nodes F x) (hv : v ∈ nodes)
    (hvu : Adjacent p F v u) : v ≠ u := by
  rintro rfl
  have hcard := h.card_eq hv
  rw [Adjacent, Finset.inter_self] at hvu
  omega

theorem exists_vertical_iff (h : A.IsSimple p size nodes F x) (hv : v ∈ nodes) :
    (∃ i ∈ F v, ∀ j ∈ (F v).erase i, A.vertical j) ↔
      ((F v).filter (A.vertical ·)).card + 1 = p := by
  constructor
  · intro hex
    obtain ⟨i, hi, hvertical⟩ := hex
    rw [h.filter_vertical hv hi hvertical, Finset.card_erase_add_one hi, h.card_eq hv]
  · intro hcard
    obtain ⟨i, hi, heq⟩ := h.exists_erase hv hcard (Finset.filter_subset _ _)
    refine ⟨i, hi, fun j hj => ?_⟩
    rw [heq, Finset.mem_filter] at hj
    exact hj.2

/-- A node has one edge for each of its half-spaces, and at most one of them runs down. -/
theorem card_filter_not_vertical (h : A.IsSimple p size nodes F x) (hv : v ∈ nodes) :
    ((F v).filter fun i => ¬ ∀ j ∈ (F v).erase i, A.vertical j).card =
      if ((F v).filter (A.vertical ·)).card + 1 = p then p - 1 else p := by
  split_ifs with hcard
  · obtain ⟨i, hi, hvertical⟩ := (h.exists_vertical_iff hv).2 hcard
    have hfilter : ((F v).filter fun k => ¬ ∀ j ∈ (F v).erase k, A.vertical j) = (F v).erase i := by
      ext k
      rw [Finset.mem_filter, Finset.mem_erase, and_comm]
      refine and_congr_left fun hk => not_congr ⟨fun hall => ?_, ?_⟩
      · have heq : (F v).erase k = (F v).erase i := by
          rw [← h.filter_vertical hv hk hall, h.filter_vertical hv hi hvertical]
        by_contra hki
        exact Finset.notMem_erase k (F v) (heq ▸ Finset.mem_erase.2 ⟨hki, hk⟩)
      · rintro rfl
        exact hvertical
    rw [hfilter, Finset.card_erase_of_mem hi, h.card_eq hv]
  · rw [Finset.filter_true_of_mem, h.card_eq hv]
    intro i hi hvertical
    exact hcard ((h.exists_vertical_iff hv).1 ⟨i, hi, hvertical⟩)

/-- Each edge that does not run down leads to one neighbour, and each neighbour lies on one edge. -/
theorem length_eq_card_filter (h : A.IsSimple p size nodes F x) (hv : v ∈ nodes) {l : List ι}
    (hnodup : l.Nodup) (hl : ∀ u, u ∈ l ↔ u ∈ nodes ∧ Adjacent p F v u) :
    l.length = ((F v).filter fun i => ¬ ∀ j ∈ (F v).erase i, A.vertical j).card := by
  classical
  have hend (i : ℕ) (hi : i ∈ (F v).filter fun i => ¬ ∀ j ∈ (F v).erase i, A.vertical j) :
      ∃ u ∈ nodes, u ≠ v ∧ (F v).erase i ⊆ F u := by
    obtain ⟨hi, hnot⟩ := Finset.mem_filter.1 hi
    exact (h.ends hv hi).resolve_left hnot
  choose e he hne hsub using hend
  rw [← List.toFinset_card_of_nodup hnodup]
  symm
  refine Finset.card_bij e ?_ ?_ ?_
  · intro i hi
    rw [List.mem_toFinset, hl]
    exact ⟨he i hi, h.adjacent_of_erase_subset hv (he i hi) (hne i hi) (Finset.mem_filter.1 hi).1
      (hsub i hi)⟩
  · intro i hi k hk heq
    by_contra hik
    -- the end of both edges would have all half-spaces of the node
    have hall : F v ⊆ F (e i hi) := by
      intro j hj
      by_cases hji : j = i
      · exact heq ▸ hsub k hk (Finset.mem_erase.2 ⟨hji ▸ hik, hj⟩)
      · exact hsub i hi (Finset.mem_erase.2 ⟨hji, hj⟩)
    have hF := Finset.eq_of_subset_of_card_le hall (by rw [h.card_eq hv, h.card_eq (he i hi)])
    exact hne i hi (h.inj hv (he i hi) hF).symm
  · intro u hu
    obtain ⟨hu, hadj⟩ := (hl u).1 (List.mem_toFinset.1 hu)
    have hvu := Adjacent.ne h hv hadj
    obtain ⟨i, hi, heq⟩ := h.exists_erase hv hadj Finset.inter_subset_left
    have hiu : (F v).erase i ⊆ F u := heq ▸ Finset.inter_subset_right
    have hcard : ((F v).erase i).card + 1 = p := heq ▸ hadj
    have hmem : i ∈ (F v).filter fun i => ¬ ∀ j ∈ (F v).erase i, A.vertical j :=
      Finset.mem_filter.2 ⟨hi, fun hvertical =>
        hvu (h.eq_of_vertical hcard hvertical hv hu (Finset.erase_subset i _) hiu)⟩
    refine ⟨i, hmem, ?_⟩
    exact (h.eq_or_eq_of_subset hcard hv hu (he i hmem) (Finset.erase_subset i _) hiu (hsub i hmem)
      hvu).resolve_left (hne i hmem)

/-- A node has as many neighbours as half-spaces, less one if it lies on a vertical edge. -/
theorem length_neighbors (h : A.IsSimple p size nodes F x) (hv : v ∈ nodes) {l : List ι}
    (hnodup : l.Nodup) (hl : ∀ u, u ∈ l ↔ u ∈ nodes ∧ Adjacent p F v u) :
    l.length = if ((F v).filter (A.vertical ·)).card + 1 = p then p - 1 else p :=
  (h.length_eq_card_filter hv hnodup hl).trans (h.card_filter_not_vertical hv)

theorem slack_nonneg (h : A.IsSimple p size nodes F x) (hv : v ∈ nodes) (hu : u ∈ nodes) :
    0 ≤ A.slack (F v) (x u) := by
  rw [slack_apply]
  exact Finset.sum_nonneg fun j hj => h.nonneg hu (h.facets_lt hv hj)

theorem slack_down_nonneg (h : A.IsSimple p size nodes F x) (hv : v ∈ nodes) :
    0 ≤ A.slack (F v) A.down := by
  rw [slack_apply]
  exact Finset.sum_nonneg fun j hj => h.upright.side_down_nonneg (h.facets_lt hv hj)

/-- The slack of the half-spaces of a node vanishes there, and at no other node. -/
theorem slack_eq_zero_iff (h : A.IsSimple p size nodes F x) (hv : v ∈ nodes) (hu : u ∈ nodes) :
    A.slack (F v) (x u) = 0 ↔ u = v := by
  rw [slack_apply]
  constructor
  · intro hsum
    have hzero := (Finset.sum_eq_zero_iff_of_nonneg
      fun j hj => h.nonneg hu (h.facets_lt hv hj)).1 hsum
    have hall : F v ⊆ F u := fun j hj => (h.tight_iff hu (h.facets_lt hv hj)).1 (hzero j hj)
    exact (h.inj hv hu (Finset.eq_of_subset_of_card_le hall
      (by rw [h.card_eq hv, h.card_eq hu]))).symm
  · rintro rfl
    exact Finset.sum_eq_zero fun j hj => h.side_eq_zero hv hj

/-- Of a part of the nodes that is closed under adjacency below zero, the best node is optimal,
since no edge leads from it to a better one. -/
theorem exists_least (h : A.IsSimple p size nodes F x) (hdown : 0 ≤ g A.down) {C : Set ι}
    (hC : ∀ {v}, v ∈ C → v ∈ nodes ∧ g (x v) < 0) (hne : C.Nonempty)
    (hclosed : ∀ {v u}, v ∈ C → u ∈ nodes → g (x u) < 0 → Adjacent p F v u → u ∈ C) :
    ∃ c ∈ C, ∀ {y}, A.Admits size y → g (x c) ≤ g y := by
  obtain ⟨c, hc, hcmin⟩ := Set.exists_min_image C (fun v => g (x v))
    (h.finite.subset fun v hv => (hC hv).1) hne
  have hcnode := (hC hc).1
  refine ⟨c, hc, fun hy => h.le_of_edges hcnode ?_ hy⟩
  intro i hi d hd
  cases hd with
  | vertical => exact hdown
  | @toward u hu hne hsub =>
    rw [map_sub, sub_nonneg]
    by_cases hgu : g (x u) < 0
    · exact hcmin u (hclosed hc hu hgu (h.adjacent_of_erase_subset hcnode hu hne hi hsub))
    · exact (hC hc).2.le.trans (not_lt.1 hgu)

/-- Where a functional is negative, the graph of the nodes is connected: a part of it that is closed
under adjacency is all of it. -/
theorem mem_of_closed (h : A.IsSimple p size nodes F x) (hdown : 0 ≤ g A.down) {C : Set ι}
    (hC : ∀ {v}, v ∈ C → v ∈ nodes ∧ g (x v) < 0) (hne : C.Nonempty)
    (hclosed : ∀ {v u}, v ∈ C → u ∈ nodes → g (x u) < 0 → Adjacent p F v u → u ∈ C)
    (hu : u ∈ nodes) (hgu : g (x u) < 0) : u ∈ C := by
  by_contra huC
  obtain ⟨c, hc, hglobal⟩ := h.exists_least hdown hC hne hclosed
  have hcnode := (hC hc).1
  -- among the nodes outside, take the best one, and among those the one nearest to `c`
  obtain ⟨b, ⟨hb, hgb, hbC⟩, hbmin⟩ := Set.exists_min_image {v | v ∈ nodes ∧ g (x v) < 0 ∧ v ∉ C}
    (fun v => toLex (g (x v), A.slack (F c) (x v))) (h.finite.subset fun v hv => hv.1)
    ⟨u, hu, hgu, huC⟩
  have hedge : ∀ i ∈ F b, ∀ d, A.IsEdge nodes F x b i d →
      0 < g d ∨ (g d = 0 ∧ 0 ≤ A.slack (F c) d) := by
    intro i hi d hd
    cases hd with
    | vertical =>
      rcases hdown.lt_or_eq with hpos | hzero
      · exact .inl hpos
      · exact .inr ⟨hzero.symm, h.slack_down_nonneg hcnode⟩
    | @toward u hu hne hsub =>
      rw [map_sub, map_sub]
      by_cases hgu : g (x u) < 0
      · have hadj := h.adjacent_of_erase_subset hb hu hne hi hsub
        have huC : u ∉ C := fun hc => hbC (hclosed hc hb hgb (adjacent_comm.1 hadj))
        rcases Prod.Lex.toLex_le_toLex.1 (hbmin u ⟨hu, hgu, huC⟩) with hlt | ⟨heq, hle⟩
        · exact .inl (by simpa using hlt)
        · exact .inr ⟨sub_eq_zero.2 heq.symm, sub_nonneg.2 hle⟩
      · exact .inl (by linarith [not_lt.1 hgu])
  have hle := h.le_of_lex_edges hb hedge (h.admits hcnode) (hglobal (h.admits hb))
  rw [(h.slack_eq_zero_iff hcnode hcnode).2 rfl] at hle
  have hbc : b = c :=
    (h.slack_eq_zero_iff hcnode hb).1 (le_antisymm hle (h.slack_nonneg hcnode hb))
  exact hbC (hbc ▸ hc)

end IsSimple

end Arrangement

end WeightPolyhedron
