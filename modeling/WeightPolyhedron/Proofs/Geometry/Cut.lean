import WeightPolyhedron.Proofs.Geometry.Arrangement
import Mathlib.Algebra.BigOperators.Ring.Nat
import Mathlib.Algebra.Order.Field.Basic
import Mathlib.Combinatorics.Enumerative.DoubleCounting

/-!
A simple arrangement with one more half-space that goes through no node. Each node of the polyhedron
cut off is an old one inside, or lies on an edge that leaves the outside: at the end of the edge
that runs to a node inside, or of one that runs down. The arrangement is simple again.
-/

namespace WeightPolyhedron

variable {ι W : Type} [AddCommGroup W] [Module ℚ W]

inductive Origin (ι : Type) where
  | kept (v : ι)
  | split (violated surviving : ι)
  | lowered (v : ι)

namespace Arrangement

variable {A : Arrangement W} {p size i j : ℕ} {nodes V : Set ι} {F : ι → Finset ℕ} {x : ι → W}
  {v u o s : ι} {H : Finset ℕ} {a b : Origin ι} {y d : W}

/-- Where each element on one side is related to two on the other, an odd one is not alone. -/
theorem exists_odd_ne {face : Finset ι} {others : Finset ℕ} {r : ℕ → ι → Prop}
    [∀ i v, Decidable (r i v)] (htwo : ∀ v ∈ face, (others.bipartiteBelow r v).card = 2)
    (hj : j ∈ others) (hodd : Odd (face.bipartiteAbove r j).card) :
    ∃ i ∈ others, i ≠ j ∧ Odd (face.bipartiteAbove r i).card := by
  have heven : Even (others.filter fun i => Odd (face.bipartiteAbove r i).card).card := by
    rw [← Finset.even_sum_iff_even_card_odd,
      Finset.sum_card_bipartiteAbove_eq_sum_card_bipartiteBelow]
    exact Finset.even_sum _ fun v hv => by rw [htwo v hv]; exact even_two
  have hmem : j ∈ others.filter fun i => Odd (face.bipartiteAbove r i).card :=
    Finset.mem_filter.2 ⟨hj, hodd⟩
  have htwo : 1 < (others.filter fun i => Odd (face.bipartiteAbove r i).card).card := by
    have hpos := Finset.card_pos.2 ⟨j, hmem⟩
    obtain ⟨k, hk⟩ := heven
    omega
  obtain ⟨i, hi, hij⟩ := Finset.exists_mem_ne htwo j
  obtain ⟨hi, hiodd⟩ := Finset.mem_filter.1 hi
  exact ⟨i, hi, hij, hiodd⟩

namespace IsSimple

variable (h : A.IsSimple p size nodes F x)

include h in
theorem finite_face (V : Set ι) (H : Finset ℕ) :
    {v | v ∈ nodes ∧ v ∈ V ∧ H ⊆ F v}.Finite :=
  h.finite.subset fun _ hv => hv.1

noncomputable def face (V : Set ι) (H : Finset ℕ) : Finset ι := (h.finite_face V H).toFinset

theorem mem_face {v : ι} : v ∈ h.face V H ↔ v ∈ nodes ∧ v ∈ V ∧ H ⊆ F v :=
  (h.finite_face V H).mem_toFinset

/-- The ends of an edge of the face. -/
theorem mem_ends {i : ℕ} {v : ι} : v ∈ (h.face V H).bipartiteAbove (fun i v => i ∈ F v) i ↔
    v ∈ nodes ∧ v ∈ V ∧ insert i H ⊆ F v := by
  rw [Finset.mem_bipartiteAbove, h.mem_face, Finset.insert_subset_iff]
  tauto

/-- Each node of a face of dimension two is an end of two of its edges. -/
theorem card_edges (hH : H.card + 2 = p) {v : ι} (hv : v ∈ h.face V H) :
    ((Finset.range size \ H).bipartiteBelow (fun i v => i ∈ F v) v).card = 2 := by
  obtain ⟨hv, -, hsub⟩ := h.mem_face.1 hv
  have hdiff : (Finset.range size \ H).bipartiteBelow (fun i v => i ∈ F v) v = F v \ H := by
    ext i
    simp only [Finset.mem_bipartiteBelow, Finset.mem_range, Finset.mem_sdiff]
    exact ⟨fun hi => ⟨hi.2, hi.1.2⟩, fun hi => ⟨⟨h.facets_lt hv hi.1, hi.2⟩, hi.1⟩⟩
  rw [hdiff, Finset.card_sdiff_of_subset hsub, h.card_eq hv]
  omega

/-- An edge has at most two ends, and so one if their number is odd. -/
theorem exists_unique_end (hH : H.card + 2 = p) {i : ℕ} (hi : i ∉ H)
    (hodd : Odd ((h.face V H).bipartiteAbove (fun i v => i ∈ F v) i).card) :
    ∃ v, (v ∈ nodes ∧ v ∈ V ∧ insert i H ⊆ F v) ∧
      ∀ u, u ∈ nodes ∧ u ∈ V ∧ insert i H ⊆ F u → u = v := by
  classical
  obtain ⟨v, hv⟩ := Finset.card_pos.1 hodd.pos
  rw [h.mem_ends] at hv
  refine ⟨v, hv, fun u hu => ?_⟩
  by_contra huv
  have hcard : (insert i H).card + 1 = p := by
    rw [Finset.card_insert_of_notMem hi]
    omega
  have hpair : (h.face V H).bipartiteAbove (fun i v => i ∈ F v) i = {v, u} := by
    ext w
    rw [h.mem_ends, Finset.mem_insert, Finset.mem_singleton]
    constructor
    · intro hw
      exact h.eq_or_eq_of_subset hcard hv.1 hu.1 hw.1 hv.2.2 hu.2.2 hw.2.2 (Ne.symm huv)
    · intro hw
      rcases hw with rfl | rfl
      exacts [hv, hu]
  rw [hpair, Finset.card_pair (Ne.symm huv)] at hodd
  exact absurd hodd (by decide)

include h in
/-- The ways out of a face of dimension two come in pairs: where one edge leaves a set of nodes,
some other edge does. -/
theorem exists_exit (hH : H.card + 2 = p) (hj : j ∉ H)
    (ho : o ∈ nodes ∧ o ∈ V ∧ insert j H ⊆ F o)
    (honly : ∀ u, u ∈ nodes ∧ u ∈ V ∧ insert j H ⊆ F u → u = o) :
    ∃ i v, i ∉ H ∧ i ≠ j ∧ (v ∈ nodes ∧ v ∈ V ∧ insert i H ⊆ F v) ∧
      ∀ u, u ∈ nodes ∧ u ∈ V ∧ insert i H ⊆ F u → u = v := by
  have hone : (h.face V H).bipartiteAbove (fun i v => i ∈ F v) j = {o} := by
    ext u
    rw [h.mem_ends, Finset.mem_singleton]
    exact ⟨honly u, fun hu => hu ▸ ho⟩
  have hodd : Odd ((h.face V H).bipartiteAbove (fun i v => i ∈ F v) j).card := by
    rw [hone, Finset.card_singleton]
    exact odd_one
  have hlt : j < size := h.facets_lt ho.1 (ho.2.2 (Finset.mem_insert_self j H))
  obtain ⟨i, hi, hij, hodd⟩ := exists_odd_ne (fun v hv => h.card_edges hH hv)
    (Finset.mem_sdiff.2 ⟨Finset.mem_range.2 hlt, hj⟩) hodd
  have hiH : i ∉ H := (Finset.mem_sdiff.1 hi).2
  obtain ⟨v, hv, hunique⟩ := h.exists_unique_end hH hiH hodd
  exact ⟨i, v, hiH, hij, hv, hunique⟩

end IsSimple

end Arrangement

namespace Origin

open Arrangement

/-- The origin belongs to a node, if the nodes in `V` are cut off. -/
def IsValid (A : Arrangement W) (p size : ℕ) (nodes V : Set ι) (F : ι → Finset ℕ) : Origin ι → Prop
  | kept v => v ∈ nodes ∧ v ∉ V
  | split o s => (o ∈ nodes ∧ o ∈ V) ∧ (s ∈ nodes ∧ s ∉ V) ∧ Adjacent p F o s
  | lowered v => (v ∈ nodes ∧ v ∈ V) ∧ A.vertical size = false ∧
    ((F v).filter (A.vertical ·)).card + 1 = p

/-- The old half-spaces that are tight at a node on an edge. -/
def base (A : Arrangement W) (F : ι → Finset ℕ) : Origin ι → Finset ℕ
  | kept v => F v
  | split o s => F o ∩ F s
  | lowered v => (F v).filter (A.vertical ·)

def facets (A : Arrangement W) (size : ℕ) (F : ι → Finset ℕ) : Origin ι → Finset ℕ
  | kept v => F v
  | split o s => insert size (F o ∩ F s)
  | lowered v => insert size ((F v).filter (A.vertical ·))

def point (A : Arrangement W) (size : ℕ) (x : ι → W) : Origin ι → W
  | kept v => x v
  | split o s =>
    x o + (A.side size (x o) / (A.side size (x o) - A.side size (x s))) • (x s - x o)
  | lowered v => x v - (A.side size (x v) / A.side size A.down) • A.down

def IsFresh : Origin ι → Prop
  | kept _ => False
  | _ => True

variable {A : Arrangement W} {p size : ℕ} {nodes V : Set ι} {F : ι → Finset ℕ} {x : ι → W}
  {a b : Origin ι}

theorem kept_or_fresh (a : Origin ι) : (∃ v, a = kept v) ∨ a.IsFresh := by
  cases a with
  | kept v => exact .inl ⟨v, rfl⟩
  | split => exact .inr trivial
  | lowered => exact .inr trivial

theorem facets_of_fresh (ha : a.IsFresh) : a.facets A size F = insert size (a.base A F) := by
  cases a with
  | kept => exact ha.elim
  | split => rfl
  | lowered => rfl

theorem IsValid.card_base (ha : a.IsValid A p size nodes V F) (hfresh : a.IsFresh) :
    (a.base A F).card + 1 = p := by
  cases a with
  | kept => exact hfresh.elim
  | split => exact ha.2.2
  | lowered => exact ha.2.2

theorem IsValid.exists_violated (ha : a.IsValid A p size nodes V F) (hfresh : a.IsFresh) :
    ∃ v ∈ nodes, v ∈ V ∧ a.base A F ⊆ F v := by
  cases a with
  | kept => exact hfresh.elim
  | split o s => exact ⟨o, ha.1.1, ha.1.2, Finset.inter_subset_left⟩
  | lowered v => exact ⟨v, ha.1.1, ha.1.2, Finset.filter_subset _ _⟩

end Origin

namespace Arrangement

open Origin

/-- A half-space is added that has no node on its boundary. -/
structure IsCut (A : Arrangement W) (p size : ℕ) (nodes V : Set ι) (F : ι → Finset ℕ) (x : ι → W) :
    Prop where
  simple : A.IsSimple p size nodes F x
  upright : A.IsUpright (size + 1)
  violated : ∀ {v}, v ∈ nodes → v ∈ V → A.side size (x v) < 0
  surviving : ∀ {v}, v ∈ nodes → v ∉ V → 0 < A.side size (x v)

variable {A : Arrangement W} {p size i j : ℕ} {nodes V : Set ι} {F : ι → Finset ℕ} {x : ι → W}
  {v u o s : ι} {a b : Origin ι} {y d : W}

namespace IsCut

theorem notMem_facets (h : A.IsCut p size nodes V F x) (hv : v ∈ nodes) : size ∉ F v := fun hc =>
  lt_irrefl _ (h.simple.facets_lt hv hc)

theorem notMem_base (h : A.IsCut p size nodes V F x) (ha : a.IsValid A p size nodes V F)
    (hfresh : a.IsFresh) : size ∉ a.base A F := by
  obtain ⟨v, hv, -, hsub⟩ := ha.exists_violated hfresh
  exact fun hc => h.notMem_facets hv (hsub hc)

/-- The new node on an edge lies strictly between its ends. -/
theorem exists_share (h : A.IsCut p size nodes V F x)
    (ha : (split o s).IsValid A p size nodes V F) : ∃ c : ℚ, 0 < c ∧ c < 1 ∧
      ∀ g : W →ₗ[ℚ] ℚ, g ((split o s).point A size x) = (1 - c) * g (x o) + c * g (x s) := by
  have ho := h.violated ha.1.1 ha.1.2
  have hs := h.surviving ha.2.1.1 ha.2.1.2
  refine ⟨A.side size (x o) / (A.side size (x o) - A.side size (x s)), ?_, ?_, ?_⟩
  · exact div_pos_of_neg_of_neg ho (by linarith)
  · rw [div_lt_one_of_neg (by linarith)]
    linarith
  · intro g
    simp only [point, map_add, map_smul, map_sub, smul_eq_mul]
    ring

/-- A node that is lowered goes down for a positive distance. -/
theorem exists_depth (h : A.IsCut p size nodes V F x)
    (ha : (lowered v).IsValid A p size nodes V F) : ∃ c : ℚ, 0 < c ∧
      ∀ g : W →ₗ[ℚ] ℚ, g ((lowered v).point A size x) = g (x v) + c * g A.down := by
  have hdown : 0 < A.side size A.down :=
    h.upright.side_down_pos (Nat.lt_succ_self _) (by simp [ha.2.1])
  refine ⟨-(A.side size (x v) / A.side size A.down), ?_, ?_⟩
  · exact neg_pos.2 (div_neg_of_neg_of_pos (h.violated ha.1.1 ha.1.2) hdown)
  · intro g
    simp only [point, map_sub, map_smul, smul_eq_mul]
    ring

theorem level_point (h : A.IsCut p size nodes V F x) (ha : a.IsValid A p size nodes V F) :
    A.level (a.point A size x) = 1 := by
  cases a with
  | kept v => exact h.simple.level_eq ha.1
  | split o s =>
    obtain ⟨c, -, -, hc⟩ := h.exists_share ha
    rw [hc, h.simple.level_eq ha.1.1, h.simple.level_eq ha.2.1.1]
    ring
  | lowered v =>
    obtain ⟨c, -, hc⟩ := h.exists_depth ha
    rw [hc, h.simple.level_eq ha.1.1, h.upright.level_down]
    ring

theorem side_size_point (h : A.IsCut p size nodes V F x) (ha : a.IsValid A p size nodes V F)
    (hfresh : a.IsFresh) : A.side size (a.point A size x) = 0 := by
  cases a with
  | kept => exact hfresh.elim
  | split o s =>
    have ho := h.violated ha.1.1 ha.1.2
    have hs := h.surviving ha.2.1.1 ha.2.1.2
    have hne : A.side size (x o) - A.side size (x s) ≠ 0 := by linarith
    simp only [point, map_add, map_smul, map_sub, smul_eq_mul]
    field_simp
    ring
  | lowered v =>
    have hdown : 0 < A.side size A.down :=
      h.upright.side_down_pos (Nat.lt_succ_self _) (by simp [ha.2.1])
    simp only [point, map_sub, map_smul, smul_eq_mul]
    rw [div_mul_cancel₀ _ hdown.ne', sub_self]

/-- The old half-spaces at a node. -/
theorem side_point (h : A.IsCut p size nodes V F x) (ha : a.IsValid A p size nodes V F)
    (hj : j < size) : 0 ≤ A.side j (a.point A size x) ∧
      (A.side j (a.point A size x) = 0 ↔ j ∈ a.base A F) := by
  cases a with
  | kept v => exact ⟨h.simple.nonneg ha.1 hj, h.simple.tight_iff ha.1 hj⟩
  | split o s =>
    obtain ⟨c, hpos, hlt, hc⟩ := h.exists_share ha
    have ho := h.simple.nonneg ha.1.1 hj
    have hs := h.simple.nonneg ha.2.1.1 hj
    have ho' : 0 ≤ (1 - c) * A.side j (x o) := mul_nonneg (by linarith) ho
    have hs' : 0 ≤ c * A.side j (x s) := mul_nonneg hpos.le hs
    rw [hc, base, Finset.mem_inter, ← h.simple.tight_iff ha.1.1 hj,
      ← h.simple.tight_iff ha.2.1.1 hj]
    refine ⟨add_nonneg ho' hs', ?_⟩
    rw [add_eq_zero_iff_of_nonneg ho' hs', mul_eq_zero, mul_eq_zero,
      or_iff_right (sub_ne_zero.2 hlt.ne'), or_iff_right hpos.ne']
  | lowered v =>
    obtain ⟨c, hpos, hc⟩ := h.exists_depth ha
    have hv := h.simple.nonneg ha.1.1 hj
    rw [hc, base, Finset.mem_filter, ← h.simple.tight_iff ha.1.1 hj]
    by_cases hvertical : A.vertical j
    · rw [h.simple.upright.side_down hj hvertical, mul_zero, add_zero]
      exact ⟨hv, by simp [hvertical]⟩
    · have hdown := mul_pos hpos (h.simple.upright.side_down_pos hj hvertical)
      exact ⟨by linarith, by simp [hvertical]; linarith⟩

theorem nonneg_point (h : A.IsCut p size nodes V F x) (ha : a.IsValid A p size nodes V F)
    (hj : j < size + 1) : 0 ≤ A.side j (a.point A size x) := by
  rcases Nat.lt_succ_iff_lt_or_eq.1 hj with hj | rfl
  · exact (h.side_point ha hj).1
  · rcases a.kept_or_fresh with ⟨v, rfl⟩ | hfresh
    · exact (h.surviving ha.1 ha.2).le
    · exact (h.side_size_point ha hfresh).ge

theorem tight_point (h : A.IsCut p size nodes V F x) (ha : a.IsValid A p size nodes V F)
    (hj : j < size + 1) : A.side j (a.point A size x) = 0 ↔ j ∈ a.facets A size F := by
  rcases a.kept_or_fresh with ⟨v, rfl⟩ | hfresh
  · rcases Nat.lt_succ_iff_lt_or_eq.1 hj with hj | rfl
    · exact (h.side_point ha hj).2
    · exact iff_of_false (h.surviving ha.1 ha.2).ne' (h.notMem_facets ha.1)
  · rw [facets_of_fresh hfresh, Finset.mem_insert]
    rcases Nat.lt_succ_iff_lt_or_eq.1 hj with hj | rfl
    · rw [(h.side_point ha hj).2, or_iff_right hj.ne]
    · simp [h.side_size_point ha hfresh]

theorem facets_lt (h : A.IsCut p size nodes V F x) (ha : a.IsValid A p size nodes V F)
    (hj : j ∈ a.facets A size F) : j < size + 1 := by
  rcases a.kept_or_fresh with ⟨v, rfl⟩ | hfresh
  · exact (h.simple.facets_lt ha.1 hj).trans (Nat.lt_succ_self _)
  · rw [facets_of_fresh hfresh, Finset.mem_insert] at hj
    rcases hj with rfl | hj
    · exact Nat.lt_succ_self _
    · obtain ⟨v, hv, -, hsub⟩ := ha.exists_violated hfresh
      exact (h.simple.facets_lt hv (hsub hj)).trans (Nat.lt_succ_self _)

theorem card_facets (h : A.IsCut p size nodes V F x) (ha : a.IsValid A p size nodes V F) :
    (a.facets A size F).card = p := by
  rcases a.kept_or_fresh with ⟨v, rfl⟩ | hfresh
  · exact h.simple.card_eq ha.1
  · rw [facets_of_fresh hfresh, Finset.card_insert_of_notMem (h.notMem_base ha hfresh),
      ha.card_base hfresh]

/-- The half-spaces of an edge that is cut off are those of an edge of a node outside, and the new
one is not parallel to it. -/
theorem exists_edge_base (h : A.IsCut p size nodes V F x) (ha : a.IsValid A p size nodes V F)
    (hfresh : a.IsFresh) : ∃ v i d, v ∈ nodes ∧ i ∈ F v ∧ (F v).erase i = a.base A F ∧
      A.IsEdge nodes F x v i d ∧ 0 < A.side size d := by
  have hcard := ha.card_base hfresh
  obtain ⟨v, hv, hvV, hsub⟩ := ha.exists_violated hfresh
  cases a with
  | kept => exact hfresh.elim
  | split o s =>
    obtain ⟨i, hi, heq⟩ := h.simple.exists_erase ha.1.1 hcard Finset.inter_subset_left
    have hne : s ≠ o := fun hso => ha.2.1.2 (hso ▸ ha.1.2)
    refine ⟨o, i, x s - x o, ha.1.1, hi, heq, .toward ha.2.1.1 hne ?_, ?_⟩
    · exact heq.symm ▸ Finset.inter_subset_right
    · rw [map_sub]
      linarith [h.violated ha.1.1 ha.1.2, h.surviving ha.2.1.1 ha.2.1.2]
  | lowered v =>
    obtain ⟨i, hi, heq⟩ := h.simple.exists_erase ha.1.1 hcard (Finset.filter_subset _ _)
    refine ⟨v, i, A.down, ha.1.1, hi, heq, .vertical ?_, ?_⟩
    · intro j hj
      rw [heq] at hj
      exact (Finset.mem_filter.1 hj).2
    · exact h.upright.side_down_pos (Nat.lt_succ_self _) (by simp [ha.2.1])

theorem spans (h : A.IsCut p size nodes V F x) (ha : a.IsValid A p size nodes V F)
    (hlevel : A.level d = 0) (hd : ∀ j ∈ a.facets A size F, A.side j d = 0) : d = 0 := by
  rcases a.kept_or_fresh with ⟨v, rfl⟩ | hfresh
  · exact h.simple.spans ha.1 hlevel hd
  · rw [facets_of_fresh hfresh, Finset.forall_mem_insert] at hd
    obtain ⟨v, i, e, hv, hi, heq, hedge, hpos⟩ := h.exists_edge_base ha hfresh
    have hmul := h.simple.eq_smul hv hi hedge hlevel (heq ▸ hd.2)
    have hzero := hd.1
    rw [hmul, map_smul, smul_eq_mul, mul_eq_zero, or_iff_left hpos.ne'] at hzero
    rw [hmul, hzero, zero_smul]

theorem eq_of_base (h : A.IsCut p size nodes V F x) (ha : a.IsValid A p size nodes V F)
    (hb : b.IsValid A p size nodes V F) (hafresh : a.IsFresh) (hbfresh : b.IsFresh)
    (heq : a.base A F = b.base A F) : a = b := by
  have hcard := ha.card_base hafresh
  -- a node on a vertical edge is on no other edge
  have hvertical {v o s : ι} (hl : (lowered v).IsValid A p size nodes V F)
      (hs : (split o s).IsValid A p size nodes V F)
      (heq : (lowered v).base A F = (split o s).base A F) : False := by
    have hos := h.simple.eq_of_vertical (hl.card_base trivial)
      (fun j hj => (Finset.mem_filter.1 hj).2) hs.1.1 hs.2.1.1
      (heq ▸ Finset.inter_subset_left) (heq ▸ Finset.inter_subset_right)
    exact hs.2.1.2 (hos ▸ hs.1.2)
  cases a with
  | kept => exact hafresh.elim
  | split o s =>
    cases b with
    | kept => exact hbfresh.elim
    | lowered => exact (hvertical hb ha heq.symm).elim
    | split o' s' =>
      have hne : o ≠ s := fun hos => ha.2.1.2 (hos ▸ ha.1.2)
      have hline {w : ι} (hw : w ∈ nodes) (hsub : (split o' s').base A F ⊆ F w) :
          w = o ∨ w = s :=
        h.simple.eq_or_eq_of_subset hcard ha.1.1 ha.2.1.1 hw Finset.inter_subset_left
          Finset.inter_subset_right (heq ▸ hsub) hne
      have ho : o' = o := (hline hb.1.1 Finset.inter_subset_left).resolve_right
        fun hc => ha.2.1.2 (hc ▸ hb.1.2)
      have hs : s' = s := (hline hb.2.1.1 Finset.inter_subset_right).resolve_left
        fun hc => hb.2.1.2 (hc ▸ ha.1.2)
      rw [ho, hs]
  | lowered v =>
    cases b with
    | kept => exact hbfresh.elim
    | split => exact (hvertical ha hb heq).elim
    | lowered v' =>
      rw [h.simple.eq_of_vertical hcard (fun j hj => (Finset.mem_filter.1 hj).2) ha.1.1 hb.1.1
        (Finset.filter_subset _ _) (heq ▸ Finset.filter_subset _ _)]

theorem inj (h : A.IsCut p size nodes V F x) (ha : a.IsValid A p size nodes V F)
    (hb : b.IsValid A p size nodes V F) (heq : a.facets A size F = b.facets A size F) : a = b := by
  have hne {v : ι} {c : Origin ι} (hv : v ∈ nodes) (hc : c.IsFresh) : F v ≠ c.facets A size F := by
    intro heq
    rw [facets_of_fresh hc] at heq
    exact h.notMem_facets hv (heq ▸ Finset.mem_insert_self _ _)
  rcases a.kept_or_fresh with ⟨v, rfl⟩ | hafresh
  · rcases b.kept_or_fresh with ⟨u, rfl⟩ | hbfresh
    · rw [h.simple.inj ha.1 hb.1 heq]
    · exact absurd heq (hne ha.1 hbfresh)
  · rcases b.kept_or_fresh with ⟨u, rfl⟩ | hbfresh
    · exact absurd heq.symm (hne hb.1 hafresh)
    · apply h.eq_of_base ha hb hafresh hbfresh
      rw [facets_of_fresh hafresh, facets_of_fresh hbfresh] at heq
      rw [← Finset.erase_insert (h.notMem_base ha hafresh), heq,
        Finset.erase_insert (h.notMem_base hb hbfresh)]

/-- The edge of a new node leaves the outside at one node. -/
theorem exists_unique_violated (h : A.IsCut p size nodes V F x) (ha : a.IsValid A p size nodes V F)
    (hfresh : a.IsFresh) : ∃ v, (v ∈ nodes ∧ v ∈ V ∧ a.base A F ⊆ F v) ∧
      ∀ u, u ∈ nodes ∧ u ∈ V ∧ a.base A F ⊆ F u → u = v := by
  have hcard := ha.card_base hfresh
  cases a with
  | kept => exact hfresh.elim
  | split o s =>
    refine ⟨o, ⟨ha.1.1, ha.1.2, Finset.inter_subset_left⟩, fun u hu => ?_⟩
    have hne : o ≠ s := fun hos => ha.2.1.2 (hos ▸ ha.1.2)
    refine (h.simple.eq_or_eq_of_subset hcard ha.1.1 ha.2.1.1 hu.1 Finset.inter_subset_left
      Finset.inter_subset_right hu.2.2 hne).resolve_right fun hus => ?_
    exact ha.2.1.2 (hus ▸ hu.2.1)
  | lowered v =>
    refine ⟨v, ⟨ha.1.1, ha.1.2, Finset.filter_subset _ _⟩, fun u hu => ?_⟩
    exact h.simple.eq_of_vertical hcard (fun j hj => (Finset.mem_filter.1 hj).2) hu.1 ha.1.1 hu.2.2
      (Finset.filter_subset _ _)

/-- An edge that leaves the outside has a new node, or it runs down and the new half-space is
vertical. -/
theorem exists_fresh (h : A.IsCut p size nodes V F x) {G : Finset ℕ} (hG : G.card + 1 = p)
    (hv : v ∈ nodes ∧ v ∈ V ∧ G ⊆ F v) (honly : ∀ u, u ∈ nodes ∧ u ∈ V ∧ G ⊆ F u → u = v) :
    (∃ b : Origin ι, b.IsValid A p size nodes V F ∧ b.IsFresh ∧ b.base A F = G) ∨
      (A.vertical size ∧ ∀ j ∈ G, A.vertical j) := by
  obtain ⟨hv, hvV, hsub⟩ := hv
  obtain ⟨k, hk, heq⟩ := h.simple.exists_erase hv hG hsub
  rcases h.simple.ends hv hk with hvertical | ⟨u, hu, hne, hsubu⟩
  · have hfilter := h.simple.filter_vertical hv hk hvertical
    rw [heq] at hfilter hvertical
    cases hM : A.vertical size with
    | true => exact .inr ⟨rfl, hvertical⟩
    | false => exact .inl ⟨lowered v, ⟨⟨hv, hvV⟩, hM, hfilter ▸ hG⟩, trivial, hfilter⟩
  · have hadj := h.simple.adjacent_of_erase_subset hv hu hne hk hsubu
    rw [heq] at hsubu
    have huV : u ∉ V := fun hc => hne (honly u ⟨hu, hc, hsubu⟩)
    refine .inl ⟨split v u, ⟨⟨hv, hvV⟩, ⟨hu, huV⟩, hadj⟩, trivial, ?_⟩
    refine (Finset.eq_of_subset_of_card_le (Finset.subset_inter hsub hsubu) ?_).symm
    exact Nat.le_of_succ_le_succ (hadj.trans hG.symm).le

/-- The edges of a kept node lead to other kept nodes, or are cut. -/
theorem ends_kept (h : A.IsCut p size nodes V F x) (hv : v ∈ nodes ∧ v ∉ V) (hi : i ∈ F v) :
    (∀ j ∈ (F v).erase i, A.vertical j) ∨ ∃ b : Origin ι, b.IsValid A p size nodes V F ∧
      b ≠ kept v ∧ (F v).erase i ⊆ b.facets A size F := by
  rcases h.simple.ends hv.1 hi with hvertical | ⟨u, hu, hne, hsub⟩
  · exact .inl hvertical
  · by_cases huV : u ∈ V
    · have hadj := h.simple.adjacent_of_erase_subset hv.1 hu hne hi hsub
      refine .inr ⟨split u v, ⟨⟨hu, huV⟩, hv, adjacent_comm.1 hadj⟩, by simp, ?_⟩
      intro j hj
      exact Finset.mem_insert_of_mem (Finset.mem_inter.2 ⟨hsub hj, Finset.mem_of_mem_erase hj⟩)
    · exact .inr ⟨kept u, ⟨hu, huV⟩, fun hc => hne (Origin.kept.inj hc), hsub⟩

/-- The edges of a fresh node on the new half-space. Around the edge that the node lies on, each
face of dimension two has another way out. -/
theorem ends_fresh (h : A.IsCut p size nodes V F x) (ha : a.IsValid A p size nodes V F)
    (hfresh : a.IsFresh) (hi : i ∈ a.base A F) :
    (∀ j ∈ insert size ((a.base A F).erase i), A.vertical j) ∨
      ∃ b : Origin ι, b.IsValid A p size nodes V F ∧ b ≠ a ∧
        insert size ((a.base A F).erase i) ⊆ b.facets A size F := by
  have hcard := ha.card_base hfresh
  have hH : ((a.base A F).erase i).card + 2 = p := by
    have hpos := Finset.card_pos.2 ⟨i, hi⟩
    rw [Finset.card_erase_of_mem hi]
    omega
  obtain ⟨v, hv, honly⟩ := h.exists_unique_violated ha hfresh
  rw [← Finset.insert_erase hi] at hv honly
  obtain ⟨k, w, hk, hki, hw, hwonly⟩ :=
    h.simple.exists_exit hH (Finset.notMem_erase i _) hv honly
  have hother : (insert k ((a.base A F).erase i)).card + 1 = p := by
    rw [Finset.card_insert_of_notMem hk]
    omega
  rcases h.exists_fresh hother hw hwonly with ⟨b, hb, hbfresh, hbase⟩ | ⟨hM, hvertical⟩
  · refine .inr ⟨b, hb, ?_, ?_⟩
    · rintro rfl
      have hmem : k ∈ b.base A F := hbase.symm ▸ Finset.mem_insert_self k _
      exact hk (Finset.mem_erase.2 ⟨hki, hmem⟩)
    · rw [facets_of_fresh hbfresh, hbase]
      exact Finset.insert_subset_insert _ (Finset.subset_insert _ _)
  · refine .inl (Finset.forall_mem_insert .. |>.2 ⟨hM, fun j hj => ?_⟩)
    exact hvertical j (Finset.mem_insert_of_mem hj)

theorem ends (h : A.IsCut p size nodes V F x) (ha : a.IsValid A p size nodes V F)
    (hi : i ∈ a.facets A size F) : (∀ j ∈ (a.facets A size F).erase i, A.vertical j) ∨
      ∃ b : Origin ι, b.IsValid A p size nodes V F ∧ b ≠ a ∧
        (a.facets A size F).erase i ⊆ b.facets A size F := by
  rcases a.kept_or_fresh with ⟨v, rfl⟩ | hfresh
  · exact h.ends_kept ha hi
  have hnot := h.notMem_base ha hfresh
  rw [facets_of_fresh hfresh] at hi ⊢
  rcases Finset.mem_insert.1 hi with rfl | hi
  · rw [Finset.erase_insert hnot]
    cases a with
    | kept => exact hfresh.elim
    | split o s => exact .inr ⟨kept s, ha.2.1, by simp, Finset.inter_subset_right⟩
    | lowered v => exact .inl fun j hj => (Finset.mem_filter.1 hj).2
  · have hne : size ≠ i := fun heq => hnot (heq ▸ hi)
    rw [Finset.erase_insert_of_ne hne]
    exact h.ends_fresh ha hfresh hi

/-- A point inside keeps the arrangement from losing all nodes. -/
theorem exists_valid (h : A.IsCut p size nodes V F x) (hy : A.Admits (size + 1) y) :
    ∃ a : Origin ι, a.IsValid A p size nodes V F := by
  by_contra hnone
  push Not at hnone
  have hold : A.Admits size y := ⟨hy.1, fun j hj => hy.2 j (hj.trans (Nat.lt_succ_self _))⟩
  have hall {v : ι} (hv : v ∈ nodes) : v ∈ V := by
    by_contra hvV
    exact hnone (kept v) ⟨hv, hvV⟩
  obtain ⟨v, hv, hmax⟩ := Set.exists_max_image nodes (fun v => A.side size (x v)) h.simple.finite
    (h.simple.inhabited hold)
  have hle := h.simple.le_of_edges (g := -A.side size) hv ?_ hold
  · have hneg := h.violated hv (hall hv)
    have hnonneg := hy.2 size (Nat.lt_succ_self _)
    simp only [LinearMap.neg_apply, neg_le_neg_iff] at hle
    linarith
  · intro i hi d hd
    cases hd with
    | vertical hvertical =>
      have hcard := Finset.card_erase_of_mem hi
      have hpos := Finset.card_pos.2 ⟨i, hi⟩
      cases hM : A.vertical size with
      | true => simp [h.upright.side_down (Nat.lt_succ_self _) hM]
      | false =>
        refine absurd ⟨⟨hv, hall hv⟩, hM, ?_⟩ (hnone (lowered v))
        rw [h.simple.filter_vertical hv hi hvertical, hcard, ← h.simple.card_eq hv]
        omega
    | @toward u hu =>
      have := hmax u hu
      simpa using this

/-- The arrangement with the new half-space is simple. -/
theorem isSimple (h : A.IsCut p size nodes V F x) :
    A.IsSimple p (size + 1) {a : Origin ι | a.IsValid A p size nodes V F} (facets A size F)
      (point A size x) where
  upright := h.upright
  level_eq ha := h.level_point ha
  facets_lt ha := h.facets_lt ha
  nonneg ha := h.nonneg_point ha
  tight_iff ha := h.tight_point ha
  card_eq ha := h.card_facets ha
  spans ha := h.spans ha
  inj ha hb := h.inj ha hb
  ends ha := h.ends ha
  inhabited hy := h.exists_valid hy

/-- A new node is adjacent to no old one but the end of its edge. -/
theorem eq_split_of_adjacent (h : A.IsCut p size nodes V F x) (hv : v ∈ nodes ∧ v ∉ V)
    (ha : a.IsValid A p size nodes V F) (hfresh : a.IsFresh)
    (hadj : (F v ∩ a.facets A size F).card + 1 = p) : ∃ o, a = split o v := by
  have hcard := ha.card_base hfresh
  have hinter : F v ∩ a.facets A size F = F v ∩ a.base A F := by
    rw [facets_of_fresh hfresh, Finset.inter_insert_of_notMem (h.notMem_facets hv.1)]
  have hsub : a.base A F ⊆ F v := by
    rw [hinter] at hadj
    have heq := Finset.eq_of_subset_of_card_le (Finset.inter_subset_right : F v ∩ a.base A F ⊆ _)
      (Nat.le_of_succ_le_succ (hcard.trans hadj.symm).le)
    exact heq ▸ Finset.inter_subset_left
  cases a with
  | kept => exact hfresh.elim
  | split o s =>
    refine ⟨o, ?_⟩
    have hne : o ≠ s := fun hos => ha.2.1.2 (hos ▸ ha.1.2)
    rcases h.simple.eq_or_eq_of_subset hcard ha.1.1 ha.2.1.1 hv.1 Finset.inter_subset_left
      Finset.inter_subset_right hsub hne with rfl | rfl
    · exact absurd ha.1.2 hv.2
    · rfl
  | lowered u =>
    have huv := h.simple.eq_of_vertical hcard (fun j hj => (Finset.mem_filter.1 hj).2) ha.1.1 hv.1
      (Finset.filter_subset _ _) hsub
    exact absurd (huv ▸ ha.1.2) hv.2

end IsCut

end Arrangement

end WeightPolyhedron
