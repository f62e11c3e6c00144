import WeightPolyhedron.Vertex.Adjacency
import Mathlib.Data.Finset.Card
import Mathlib.Data.List.Nodup
import Mathlib.Order.Compare

/-!
Facet lists of vertices. They ascend, the merge of two of them counts their intersection, and each
of the three ways of making a vertex gives one with as many facets as there are objectives.
-/

namespace WeightPolyhedron

namespace FacetId

variable {id i : FacetId} {l : List FacetId}

theorem mem_insert : i ∈ FacetId.insert id l ↔ i = id ∨ i ∈ l := by
  induction l with
  | nil => simp [FacetId.insert]
  | cons a l ih =>
    unfold FacetId.insert
    split_ifs
    · simp
    · simp only [List.mem_cons, ih]
      tauto

theorem length_insert : (FacetId.insert id l).length = l.length + 1 := by
  induction l with
  | nil => rfl
  | cons a l ih =>
    unfold FacetId.insert
    split_ifs
    · rfl
    · simp [ih]

theorem sortedLT_insert (hl : l.Pairwise (· < ·)) (hid : id ∉ l) :
    (FacetId.insert id l).Pairwise (· < ·) := by
  induction l with
  | nil => simp [FacetId.insert]
  | cons a l ih =>
    have ha := List.pairwise_cons.1 hl
    have hne : id ≠ a ∧ id ∉ l := by simpa using hid
    unfold FacetId.insert
    split_ifs with h
    · have hlt : id < a := lt_of_le_of_ne h hne.1
      refine List.pairwise_cons.2 ⟨fun b hb => ?_, hl⟩
      rcases List.mem_cons.1 hb with rfl | hb
      exacts [hlt, hlt.trans (ha.1 b hb)]
    · refine List.pairwise_cons.2 ⟨fun b hb => ?_, ih ha.2 hne.2⟩
      rcases mem_insert.1 hb with rfl | hb
      exacts [not_le.1 h, ha.1 b hb]

end FacetId

section Merge

variable {β : Type} [LinearOrder β]

/-- Nothing below the least element of a list is in it. -/
theorem not_mem_of_lt_head {a b : β} {l : List β} (hl : (b :: l).Pairwise (· < ·)) (h : a < b) :
    a ∉ b :: l := by
  intro ha
  rcases List.mem_cons.1 ha with rfl | ha
  · exact lt_irrefl _ h
  · exact lt_asymm h ((List.pairwise_cons.1 hl).1 a ha)

/-- The merge counts the elements of the first list that are in the second one. -/
theorem commonCount_eq_length_filter {l₁ l₂ : List β} (h₁ : l₁.Pairwise (· < ·))
    (h₂ : l₂.Pairwise (· < ·)) : commonCount l₁ l₂ = (l₁.filter (· ∈ l₂)).length := by
  induction l₁ generalizing l₂ with
  | nil => rfl
  | cons a l₁ ih =>
    obtain ⟨ha, h₁'⟩ := List.pairwise_cons.1 h₁
    simp only [commonCount]
    induction l₂ with
    | nil => simp [commonCountFrom]
    | cons b l₂ ih₂ =>
      obtain ⟨hb, h₂'⟩ := List.pairwise_cons.1 h₂
      unfold commonCountFrom
      split
      · next hlt =>
        have hab : a < b := compare_lt_iff_lt.1 hlt
        rw [ih h₁' h₂, List.filter_cons_of_neg (by simpa using not_mem_of_lt_head h₂ hab)]
      · next heq =>
        obtain rfl : a = b := compare_eq_iff_eq.1 heq
        rw [ih h₁' h₂', List.filter_cons_of_pos (by simp), List.length_cons]
        congr 2
        apply List.filter_congr
        intro c hc
        simp [(ha c hc).ne']
      · next hgt =>
        have hba : b < a := compare_gt_iff_gt.1 hgt
        rw [ih₂ h₂']
        congr 1
        apply List.filter_congr
        intro c hc
        have hbc : b < c := by
          rcases List.mem_cons.1 hc with rfl | hc
          exacts [hba, hba.trans (ha c hc)]
        simp [hbc.ne']

end Merge

namespace Vertex

variable {α : Type}

def facetSet (v : Vertex α) : Finset FacetId := v.facets.toFinset

@[simp] theorem mem_facetSet {v : Vertex α} {i : FacetId} : i ∈ v.facetSet ↔ i ∈ v.facets := by
  simp [facetSet]

/-- A weight over `p` objectives, and as many facets, ascending and below a bound. -/
structure IsShaped (v : Vertex α) (p bound : Nat) : Prop where
  weight_length : v.weight.length = p
  facets_length : v.facets.length = p
  facets_sorted : v.facets.Pairwise (· < ·)
  facets_lt : ∀ i ∈ v.facets, i < bound

variable {v u : Vertex α} {p bound : Nat} {id : FacetId} {f : Facet α}

namespace IsShaped

theorem facets_nodup (h : v.IsShaped p bound) : v.facets.Nodup :=
  h.facets_sorted.imp fun hlt => hlt.ne

theorem card_facetSet (h : v.IsShaped p bound) : v.facetSet.card = p := by
  rw [facetSet, List.toFinset_card_of_nodup h.facets_nodup, h.facets_length]

theorem mono (h : v.IsShaped p bound) {larger : Nat} (hle : bound ≤ larger) :
    v.IsShaped p larger :=
  { h with facets_lt := fun i hi => (h.facets_lt i hi).trans_le hle }

theorem notMem_facets (h : v.IsShaped p id) : id ∉ v.facets := fun hi =>
  lt_irrefl _ (h.facets_lt id hi)

/-- The node that a vertex names does not matter to its shape. -/
theorem withNode (h : v.IsShaped p bound) (n : Option NodeKey) :
    { v with node := n }.IsShaped p bound :=
  ⟨h.weight_length, h.facets_length, h.facets_sorted, h.facets_lt⟩

end IsShaped

theorem sharedFacets_eq_length (hv : v.facets.Pairwise (· < ·)) (hu : u.facets.Pairwise (· < ·)) :
    v.sharedFacets u = (v.facets.filter (· ∈ u.facets)).length :=
  commonCount_eq_length_filter hv hu

theorem sharedFacets_eq_card (hv : v.facets.Pairwise (· < ·)) (hu : u.facets.Pairwise (· < ·)) :
    v.sharedFacets u = (v.facetSet ∩ u.facetSet).card := by
  have hnodup : (v.facets.filter (· ∈ u.facets)).Nodup :=
    (hv.imp fun hlt => hlt.ne).filter _
  rw [sharedFacets_eq_length hv hu, ← List.toFinset_card_of_nodup hnodup]
  congr 1
  ext i
  simp

theorem isNeighbour_iff (hv : v.IsShaped p bound) (hu : u.IsShaped p bound) :
    v.isNeighbour u ↔ (v.facetSet ∩ u.facetSet).card + 1 = p := by
  simp [isNeighbour, objectives, hv.weight_length, hu.weight_length,
    sharedFacets_eq_card hv.facets_sorted hu.facets_sorted]

theorem isNeighbour_comm (hv : v.IsShaped p bound) (hu : u.IsShaped p bound) :
    v.isNeighbour u ↔ u.isNeighbour v := by
  rw [isNeighbour_iff hv hu, isNeighbour_iff hu hv, Finset.inter_comm]

variable [Scalar α]

theorem corner?_eq_some {i p : Nat} {value : α} {point : FacetId} (h : i < p) :
    corner? i p value point = some {
      weight := Facet.unitVector p i
      value
      facets := FacetId.insert point ((List.range p).filter (· ≠ i))
      node := none } := by
  simp [corner?, h]

theorem corner?_isShaped {i p : Nat} {value : α} (h : corner? i p value p = some v) :
    v.IsShaped p (p + 1) := by
  unfold corner? at h
  split_ifs at h with hi
  obtain rfl := Option.some.inj h
  have hp : p ∉ (List.range p).filter (· ≠ i) := by simp
  refine ⟨by simp [Facet.unitVector], ?_, ?_, ?_⟩
  · have hlen : ((List.range p).filter (· ≠ i)).length + 1 = p := by
      have herase : (List.range p).erase i = (List.range p).filter (· ≠ i) := by
        rw [List.nodup_range.erase_eq_filter]
        exact List.filter_congr fun k _ => by rw [Bool.eq_iff_iff]; simp
      rw [← herase, List.length_erase_of_mem (List.mem_range.2 hi), List.length_range]
      omega
    rw [FacetId.length_insert, hlen]
  · exact FacetId.sortedLT_insert (List.pairwise_lt_range.filter _) hp
  · intro k hk
    rcases FacetId.mem_insert.1 hk with rfl | hk
    · exact Nat.lt_succ_self _
    · exact (List.mem_range.1 (List.mem_of_mem_filter hk)).trans (Nat.lt_succ_self _)

theorem corner?_facetSet {i p : Nat} {value : α} (h : corner? i p value p = some v) :
    v.facetSet = (Finset.range (p + 1)).erase i := by
  unfold corner? at h
  split_ifs at h with hi
  obtain rfl := Option.some.inj h
  ext k
  have hk : k = p ∨ (k < p ∧ k ≠ i) ↔ k ≠ i ∧ k < p + 1 :=
    ⟨fun h => h.elim (fun h => ⟨by rw [h]; exact hi.ne', by rw [h]; exact Nat.lt_succ_self p⟩)
      fun h => ⟨h.2, Nat.lt_succ_of_lt h.1⟩,
      fun h => (Nat.lt_succ_iff_lt_or_eq.1 h.2).symm.imp_right fun hlt => ⟨hlt, h.1⟩⟩
  simpa [FacetId.mem_insert] using hk

theorem corner?_isNeighbour {i j p : Nat} {x y : α} (hij : i ≠ j) (hv : corner? i p x p = some v)
    (hu : corner? j p y p = some u) : v.isNeighbour u := by
  have hi : i < p := by
    by_contra hi
    simp [corner?, hi] at hv
  have hj : j < p := by
    by_contra hj
    simp [corner?, hj] at hu
  have hshared : v.facetSet ∩ u.facetSet = (Finset.range (p + 1)) \ {i, j} := by
    rw [corner?_facetSet hv, corner?_facetSet hu]
    ext k
    simp only [Finset.mem_inter, Finset.mem_erase, Finset.mem_sdiff, Finset.mem_insert,
      Finset.mem_singleton]
    tauto
  have hsub : ({i, j} : Finset Nat) ⊆ Finset.range (p + 1) := by
    intro k hk
    rcases Finset.mem_insert.1 hk with rfl | hk
    · exact Finset.mem_range.2 (Nat.lt_succ_of_lt hi)
    · exact Finset.mem_range.2 (by rw [Finset.mem_singleton.1 hk]; exact Nat.lt_succ_of_lt hj)
  rw [isNeighbour_iff (corner?_isShaped hv) (corner?_isShaped hu), hshared,
    Finset.card_sdiff_of_subset hsub, Finset.card_range, Finset.card_pair hij]
  omega

/-- What the cut of an edge does: the ends are on both sides of the facet, and the new vertex lies
between them. -/
theorem onEdge_eq_ok {w : Vertex α} (h : onEdge v u id f = .ok w) :
    v.facetValue f < 0 ∧ 0 ≤ u.facetValue f ∧
      w = {
        weight := List.zipWith (blend (share (v.facetValue f) (u.facetValue f))) v.weight u.weight
        value := blend (share (v.facetValue f) (u.facetValue f)) v.value u.value
        facets := FacetId.insert id (v.facets.filter (· ∈ u.facets))
        node := none } := by
  simp only [onEdge] at h
  split_ifs at h with hc
  exact ⟨hc.1, hc.2, (Except.ok.inj h).symm⟩

/-- A vertex on an edge has the common facets of its ends, and the new one. -/
theorem mem_facets_onEdge {w : Vertex α} (h : onEdge v u id f = .ok w) {i : FacetId} :
    i ∈ w.facets ↔ i = id ∨ (i ∈ v.facets ∧ i ∈ u.facets) := by
  obtain ⟨-, -, rfl⟩ := onEdge_eq_ok h
  simp [FacetId.mem_insert]

theorem onEdge_isShaped {w : Vertex α} (h : onEdge v u id f = .ok w) (hv : v.IsShaped p id)
    (hu : u.IsShaped p id) (hvu : v.isNeighbour u) : w.IsShaped p (id + 1) := by
  have hshared : (v.facets.filter (· ∈ u.facets)).length + 1 = p := by
    rw [isNeighbour, Bool.and_eq_true, beq_iff_eq, beq_iff_eq,
      sharedFacets_eq_length hv.facets_sorted hu.facets_sorted] at hvu
    exact hvu.2.trans hv.weight_length
  obtain ⟨-, -, rfl⟩ := onEdge_eq_ok h
  refine ⟨by simp [hv.weight_length, hu.weight_length], ?_, ?_, ?_⟩
  · rw [FacetId.length_insert, hshared]
  · apply FacetId.sortedLT_insert (hv.facets_sorted.filter _)
    intro hid
    exact hv.notMem_facets (List.mem_of_mem_filter hid)
  · intro i hi
    rcases FacetId.mem_insert.1 hi with rfl | hi
    · exact Nat.lt_succ_self _
    · exact (hv.facets_lt i (List.mem_of_mem_filter hi)).trans (Nat.lt_succ_self _)

/-- A vertex on an edge is a neighbour of the surviving end. -/
theorem onEdge_isNeighbour {w : Vertex α} (h : onEdge v u id f = .ok w) (hv : v.IsShaped p id)
    (hu : u.IsShaped p id) (hvu : v.isNeighbour u) : w.isNeighbour u := by
  have hw := onEdge_isShaped h hv hu hvu
  rw [isNeighbour_iff hw (hu.mono (Nat.le_succ _)), ← (isNeighbour_iff hv hu).1 hvu]
  congr 2
  ext i
  simp only [Finset.mem_inter, mem_facetSet, mem_facets_onEdge h]
  constructor
  · rintro ⟨rfl | hi, hiu⟩
    exacts [absurd hiu hu.notMem_facets, hi]
  · exact fun hi => ⟨.inr hi, hi.2⟩

/-- What a descent does: the first facet that is not vertical gives way to the new one, and the
value is that at which the new facet is tight. -/
theorem descend_eq_ok {log : FacetLog α} {w : Vertex α} (h : v.descend id f log = .ok w) :
    v.hasVerticalEdge log ∧ ∃ replaced ∈ v.facets, log.isVertical replaced = false ∧
      ∃ value, f.tightValue? v.weight = some value ∧
        w = { v with value, facets := FacetId.insert id (v.facets.erase replaced) } := by
  unfold descend at h
  split at h
  · cases h
  · next replaced hreplaced =>
    split_ifs at h with hvert
    split at h
    · cases h
    · next value hvalue =>
      have hnot : log.isVertical replaced = false := by
        simpa using List.find?_some hreplaced
      exact ⟨hvert, replaced, List.mem_of_find?_eq_some hreplaced, hnot, value, hvalue,
        (Except.ok.inj h).symm⟩

theorem weight_descend {log : FacetLog α} {w : Vertex α} (h : v.descend id f log = .ok w) :
    w.weight = v.weight := by
  obtain ⟨-, -, -, -, value, -, rfl⟩ := descend_eq_ok h
  rfl

theorem node_descend {log : FacetLog α} {w : Vertex α} (h : v.descend id f log = .ok w) :
    w.node = v.node := by
  obtain ⟨-, -, -, -, value, -, rfl⟩ := descend_eq_ok h
  rfl

theorem descend_isShaped {log : FacetLog α} {w : Vertex α} (h : v.descend id f log = .ok w)
    (hv : v.IsShaped p id) : w.IsShaped p (id + 1) := by
  obtain ⟨-, replaced, hmem, -, value, -, rfl⟩ := descend_eq_ok h
  refine ⟨hv.weight_length, ?_, ?_, ?_⟩
  · have hpos := List.length_pos_of_mem hmem
    rw [FacetId.length_insert, List.length_erase_of_mem hmem, ← hv.facets_length]
    omega
  · exact FacetId.sortedLT_insert (hv.facets_sorted.erase _) fun hid =>
      hv.notMem_facets (List.mem_of_mem_erase hid)
  · intro i hi
    rcases FacetId.mem_insert.1 hi with rfl | hi
    · exact Nat.lt_succ_self _
    · exact (hv.facets_lt i (List.mem_of_mem_erase hi)).trans (Nat.lt_succ_self _)

omit [Scalar α] in
theorem IsShaped.countP_facets (hv : v.IsShaped p bound) (q : FacetId → Bool) :
    v.facets.countP q = (v.facetSet.filter (q ·)).card := by
  rw [facetSet, ← List.toFinset_filter, List.toFinset_card_of_nodup (hv.facets_nodup.filter _),
    List.countP_eq_length_filter]

omit [Scalar α] in
theorem hasVerticalEdge_iff {log : FacetLog α} (hv : v.IsShaped p bound) :
    v.hasVerticalEdge log ↔ (v.facetSet.filter (log.isVertical ·)).card + 1 = p := by
  rw [← hv.countP_facets]
  simp [hasVerticalEdge, objectives, hv.weight_length]

omit [Scalar α] in
theorem isCorner_iff (hv : v.IsShaped p bound) :
    v.isCorner ↔ (v.facetSet.filter (· < p)).card + 1 = p := by
  have hcount := hv.countP_facets (·.isBoundary p)
  simp only [FacetId.isBoundary, decide_eq_true_eq] at hcount
  simp [isCorner, objectives, hv.weight_length, FacetId.isBoundary, hcount]

/-- After a descent the vertical facets are left, and the new one. -/
theorem facetSet_descend {log : FacetLog α} {w : Vertex α} (h : v.descend id f log = .ok w)
    (hv : v.IsShaped p bound) : w.facetSet = insert id (v.facetSet.filter (log.isVertical ·)) := by
  obtain ⟨hvert, replaced, hmem, hnot, value, -, rfl⟩ := descend_eq_ok h
  have hcard := (hasVerticalEdge_iff hv).1 hvert
  have hreplaced : replaced ∈ v.facetSet := mem_facetSet.2 hmem
  have herase : v.facetSet.filter (log.isVertical ·) = v.facetSet.erase replaced := by
    apply Finset.eq_of_subset_of_card_le
    · intro i hi
      obtain ⟨hi, hvertical⟩ := Finset.mem_filter.1 hi
      refine Finset.mem_erase.2 ⟨?_, hi⟩
      rintro rfl
      rw [hnot] at hvertical
      cases hvertical
    · rw [Finset.card_erase_of_mem hreplaced, hv.card_facetSet]
      omega
  ext i
  rw [herase]
  simp [FacetId.mem_insert, hv.facets_nodup.mem_erase_iff]

/-- A vertex on a vertical edge descends, unless the facet does not constrain the value. -/
theorem exists_descend {log : FacetLog α} {value : α} (id : FacetId) (hv : v.IsShaped p bound)
    (hvert : v.hasVerticalEdge log) (htight : f.tightValue? v.weight = some value) :
    ∃ w, v.descend id f log = .ok w := by
  have hcard := (hasVerticalEdge_iff hv).1 hvert
  cases hfind : v.facets.find? fun i => !log.isVertical i with
  | none =>
    have hall : v.facetSet.filter (log.isVertical ·) = v.facetSet :=
      Finset.filter_true_of_mem fun i hi => by
        simpa using List.find?_eq_none.1 hfind i (mem_facetSet.1 hi)
    rw [hall, hv.card_facetSet] at hcard
    omega
  | some replaced =>
    refine ⟨{ v with value, facets := FacetId.insert id (v.facets.erase replaced) }, ?_⟩
    simp only [descend, hfind, hvert, if_true, htight]

end Vertex

end WeightPolyhedron
