import WeightPolyhedron.Proofs.Vertex
import WeightPolyhedron.Scalar.Double

/-!
Two ways of intersecting lists of facets. Adjacency counts the common elements of two lists by
merging them, and the cut of an edge filters one list by the other. On ascending lists both give the
intersection, so that a new vertex on an edge has one facet more than its ends have in common.
-/

namespace WeightPolyhedron

section Merge

variable {β : Type} [LinearOrder β] {a b : β} {l₁ l₂ : List β}

/-- One comparison of the merge. -/
theorem commonCount_cons_cons : commonCount (a :: l₁) (b :: l₂) =
    match compare a b with
    | .lt => commonCount l₁ (b :: l₂)
    | .eq => commonCount l₁ l₂ + 1
    | .gt => commonCount (a :: l₁) l₂ := rfl

theorem commonCount_nil (l : List β) : commonCount l [] = 0 := by
  cases l <;> rfl

/-- The merge does not tell its two lists apart, ascending or not. -/
theorem commonCount_comm (l₁ l₂ : List β) : commonCount l₁ l₂ = commonCount l₂ l₁ := by
  induction l₁ generalizing l₂ with
  | nil => exact (commonCount_nil l₂).symm
  | cons a l₁ ih₁ =>
    induction l₂ with
    | nil => rfl
    | cons b l₂ ih₂ =>
      rw [commonCount_cons_cons, commonCount_cons_cons]
      rcases lt_trichotomy a b with hlt | rfl | hgt
      · rw [compare_lt_iff_lt.2 hlt, compare_gt_iff_gt.2 hlt]
        exact ih₁ (b :: l₂)
      · simp [ih₁ l₂]
      · rw [compare_gt_iff_gt.2 hgt, compare_lt_iff_lt.2 hgt]
        exact ih₂

/-- The merge of two ascending lists counts the intersection of their elements. -/
theorem commonCount_eq_card (h₁ : l₁.Pairwise (· < ·)) (h₂ : l₂.Pairwise (· < ·)) :
    commonCount l₁ l₂ = (l₁.toFinset ∩ l₂.toFinset).card := by
  have hnodup : (l₁.filter (· ∈ l₂)).Nodup := (h₁.imp fun hlt => hlt.ne).filter _
  rw [commonCount_eq_length_filter h₁ h₂, ← List.toFinset_card_of_nodup hnodup]
  congr 1
  ext c
  simp

end Merge

/-- An id above all of a list goes to its end. -/
theorem FacetId.insert_eq_append {id : FacetId} {l : List FacetId} (h : ∀ i ∈ l, i < id) :
    FacetId.insert id l = l ++ [id] := by
  induction l with
  | nil => rfl
  | cons a l ih =>
    have ha : ¬ id ≤ a := not_le.2 (h a (List.mem_cons_self ..))
    rw [FacetId.insert, if_neg ha, ih fun i hi => h i (List.mem_cons_of_mem _ hi), List.cons_append]

namespace Vertex

variable {α : Type} {v u w : Vertex α} {id : FacetId} {f : Facet α}

/-- Vertices are neighbours in either order, whatever their facets are. -/
theorem isNeighbour_swap (v u : Vertex α) : v.isNeighbour u = u.isNeighbour v := by
  have hcount : v.sharedFacets u = u.sharedFacets v := commonCount_comm v.facets u.facets
  by_cases hobj : v.objectives = u.objectives
  · simp [isNeighbour, hobj, hcount]
  · rw [isNeighbour, isNeighbour, beq_false_of_ne hobj, beq_false_of_ne (Ne.symm hobj),
      Bool.false_and, Bool.false_and]

variable [Scalar α]

/-- The facets of a vertex that a new facet makes on an edge. -/
theorem facets_onEdge (h : onEdge v u id f = .ok w) (hv : ∀ i ∈ v.facets, i < id) :
    w.facets = v.facets.filter (· ∈ u.facets) ++ [id] := by
  obtain ⟨-, -, rfl⟩ := onEdge_eq_ok h
  exact FacetId.insert_eq_append fun i hi => hv i (List.mem_of_mem_filter hi)

theorem facets_onEdge_sorted (h : onEdge v u id f = .ok w) (hvs : v.facets.Pairwise (· < ·))
    (hv : ∀ i ∈ v.facets, i < id) : w.facets.Pairwise (· < ·) := by
  rw [facets_onEdge h hv, List.pairwise_append]
  refine ⟨hvs.filter _, List.pairwise_singleton _ _, fun i hi j hj => ?_⟩
  rw [List.mem_singleton.1 hj]
  exact hv i (List.mem_of_mem_filter hi)

theorem length_facets_onEdge (h : onEdge v u id f = .ok w) (hvs : v.facets.Pairwise (· < ·))
    (hus : u.facets.Pairwise (· < ·)) (hv : ∀ i ∈ v.facets, i < id) :
    w.facets.length = v.sharedFacets u + 1 := by
  rw [facets_onEdge h hv, List.length_append, sharedFacets_eq_length hvs hus, List.length_singleton]

theorem objectives_onEdge (h : onEdge v u id f = .ok w) :
    w.objectives = min v.objectives u.objectives := by
  obtain ⟨-, -, rfl⟩ := onEdge_eq_ok h
  simp [objectives]

/-- The new vertex has the same facets in common with either end as the ends have with each
other. -/
theorem sharedFacets_onEdge (h : onEdge v u id f = .ok w) (hvs : v.facets.Pairwise (· < ·))
    (hus : u.facets.Pairwise (· < ·)) (hv : ∀ i ∈ v.facets, i < id) (hu : ∀ i ∈ u.facets, i < id) :
    w.sharedFacets v = v.sharedFacets u ∧ w.sharedFacets u = v.sharedFacets u := by
  have hws := facets_onEdge_sorted h hvs hv
  have hidv : id ∉ v.facets := fun hid => lt_irrefl id (hv id hid)
  have hidu : id ∉ u.facets := fun hid => lt_irrefl id (hu id hid)
  rw [sharedFacets_eq_card hws hvs, sharedFacets_eq_card hws hus, sharedFacets_eq_card hvs hus]
  constructor
  · congr 1
    ext i
    simp only [Finset.mem_inter, mem_facetSet, mem_facets_onEdge h]
    grind
  · congr 1
    ext i
    simp only [Finset.mem_inter, mem_facetSet, mem_facets_onEdge h]
    grind

/-- Where the ends have the same number of objectives, the new vertex is a neighbour of either just
if they are neighbours, and so it is if it has as many facets as there are objectives. -/
theorem isNeighbour_onEdge (h : onEdge v u id f = .ok w) (hvs : v.facets.Pairwise (· < ·))
    (hus : u.facets.Pairwise (· < ·)) (hv : ∀ i ∈ v.facets, i < id) (hu : ∀ i ∈ u.facets, i < id)
    (hobj : v.objectives = u.objectives) :
    (w.facets.length = v.objectives ↔ v.isNeighbour u) ∧ (w.isNeighbour v ↔ v.isNeighbour u) ∧
      (w.isNeighbour u ↔ v.isNeighbour u) := by
  obtain ⟨hsharedv, hsharedu⟩ := sharedFacets_onEdge h hvs hus hv hu
  have hw : w.objectives = u.objectives := by rw [objectives_onEdge h, hobj, min_self]
  rw [length_facets_onEdge h hvs hus hv]
  simp [isNeighbour, hobj, hw, hsharedv, hsharedu]

/-- On ascending lists over any order, the merge counts the intersection, in either order of the
lists. A vertex that a new facet makes on an edge has just the facets that the ends have in common
and the new one, ascending, so one more than the merge counts; and it has as many facets as there
are objectives and is a neighbour of both ends just if these are neighbours, for each of these
conditions alone where the ends have the same number of objectives. -/
theorem intersections_agree :
    (∀ {β : Type} [LinearOrder β] (l₁ l₂ : List β), l₁.Pairwise (· < ·) → l₂.Pairwise (· < ·) →
      commonCount l₁ l₂ = (l₁.toFinset ∩ l₂.toFinset).card ∧
      commonCount l₁ l₂ = commonCount l₂ l₁) ∧
    ∀ (v u w : Vertex α) (id : FacetId) (f : Facet α), v.facets.Pairwise (· < ·) →
      u.facets.Pairwise (· < ·) → (∀ i ∈ v.facets, i < id) → (∀ i ∈ u.facets, i < id) →
      onEdge v u id f = .ok w →
      w.facets.Pairwise (· < ·) ∧ (∀ i, i ∈ w.facets ↔ i = id ∨ (i ∈ v.facets ∧ i ∈ u.facets)) ∧
      w.facets = v.facets.filter (· ∈ u.facets) ++ [id] ∧
      w.facets.length = v.sharedFacets u + 1 ∧
      (w.facets.length = w.objectives ∧ w.isNeighbour v ∧ w.isNeighbour u ↔ v.isNeighbour u) ∧
      (v.objectives = u.objectives →
        (w.facets.length = v.objectives ↔ v.isNeighbour u) ∧ (w.isNeighbour v ↔ v.isNeighbour u) ∧
          (w.isNeighbour u ↔ v.isNeighbour u)) := by
  refine ⟨fun l₁ l₂ h₁ h₂ => ⟨commonCount_eq_card h₁ h₂, commonCount_comm l₁ l₂⟩, ?_⟩
  intro v u w id f hvs hus hv hu h
  refine ⟨facets_onEdge_sorted h hvs hv, fun i => mem_facets_onEdge h, facets_onEdge h hv,
    length_facets_onEdge h hvs hus hv, ?_, isNeighbour_onEdge h hvs hus hv hu⟩
  by_cases hobj : v.objectives = u.objectives
  · obtain ⟨hlength, hwv, hwu⟩ := isNeighbour_onEdge h hvs hus hv hu hobj
    have hw : w.objectives = v.objectives := by rw [objectives_onEdge h, hobj, min_self]
    rw [hw, hlength, hwv, hwu]
    simp
  · -- the new vertex has the objectives of one end only
    have hne : ¬ v.isNeighbour u := by simp [isNeighbour, hobj]
    refine iff_of_false ?_ hne
    rintro ⟨-, hwv, hwu⟩
    simp only [isNeighbour, Bool.and_eq_true, beq_iff_eq] at hwv hwu
    exact hobj (hwv.1.symm.trans hwu.1)

/-- The point `(5, 1)` makes a vertex on the edge between the corners of the point `(3, 5)`. -/
theorem intersections_agree_on_edge :
    ∃ w, onEdge (α := Float) ⟨[0, 1], 5, [0, 2], none⟩ ⟨[1, 0], 3, [1, 2], none⟩ 3
        ⟨[5, 1, -1], .point⟩ = .ok w ∧ w.facets = [2, 3] ∧
      w.isNeighbour ⟨[0, 1], 5, [0, 2], none⟩ ∧ w.isNeighbour ⟨[1, 0], 3, [1, 2], none⟩ ∧
      commonCount [1, 2, 4, 7] [2, 3, 4, 8] = 2 := by
  have hcut : (onEdge (α := Float) ⟨[0, 1], 5, [0, 2], none⟩ ⟨[1, 0], 3, [1, 2], none⟩ 3
      ⟨[5, 1, -1], .point⟩).toOption.isSome := by decide +kernel
  cases h : onEdge (α := Float) ⟨[0, 1], 5, [0, 2], none⟩ ⟨[1, 0], 3, [1, 2], none⟩ 3
      ⟨[5, 1, -1], .point⟩ with
  | error e => simp [h, Except.toOption] at hcut
  | ok w =>
    have hfirst : ([1, 2, 4, 7] : List Nat).Pairwise (· < ·) := by decide
    have hsecond : ([2, 3, 4, 8] : List Nat).Pairwise (· < ·) := by decide
    obtain ⟨hlists, hvertices⟩ := intersections_agree (α := Float)
    obtain ⟨hcount, -⟩ := hlists _ _ hfirst hsecond
    obtain ⟨-, -, hfacets, -, hiff, -⟩ :=
      hvertices _ _ w _ _ (by decide) (by decide) (by decide) (by decide) h
    obtain ⟨-, hv, hu⟩ := hiff.2 (by decide)
    exact ⟨w, rfl, hfacets, hv, hu, hcount.trans (by decide)⟩

end Vertex

end WeightPolyhedron
