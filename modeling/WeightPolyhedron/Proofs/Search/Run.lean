import Mathlib
import WeightPolyhedron.Proofs.Search.Calls
import WeightPolyhedron.Proofs.Search.Known

/-!
Correctness of the search. Given right answers, each step leaves all tested vertices confirmed, and
so a search that comes to its end has found the problem up to the margin.
-/

namespace WeightPolyhedron

variable {p : Nat} {P : Problem p} {settings : Settings ℚ}

theorem length_unitVector (i : Nat) : (Facet.unitVector p i : List ℚ).length = p := by
  simp [Facet.unitVector]

theorem isWeight_unitVector (i : Fin p) : IsWeight p (Facet.unitVector p i) := by
  refine ⟨length_unitVector i, fun x hx => ?_, ?_⟩
  · obtain ⟨k, -, rfl⟩ := List.mem_map.1 hx
    split_ifs <;> simp
  · rw [sum_eq_sum (length_unitVector i)]
    simp [getD_unitVector]

theorem dot_unitVector {y : List ℚ} (hy : y.length = p) (i : Fin p) :
    dot y (Facet.unitVector p i) = y.getD i 0 := by
  rw [dot_eq_sum hy (length_unitVector i)]
  simp [getD_unitVector]

namespace Skeleton

variable {s : Skeleton ℚ} {point : List ℚ} {rays : List (List ℚ)} {i : Nat}

/-- The corner whose weight gave the first point is confirmed by it. -/
theorem knows_of_start (h : start p point (some i) settings = .ok s) (hi : i < p)
    (hmargin : 0 ≤ settings.epsilon)
    (ha : P.IsAnswer (Facet.unitVector p i) (.point point)) :
    s.Knows P settings.epsilon {.point point} none := by
  have hexact := isExact_of_start h hmargin
  obtain ⟨hp, hlength, f, hf, rfl⟩ := start_eq_ok h
  obtain ⟨nodes, origin, hclique⟩ := clique_cornerMesh point (some i)
  rw [hlength] at hclique
  refine ⟨hexact, rfl, rfl, ?_, ?_⟩
  · intro j g hg hkind
    rw [FacetLog.get?_snoc] at hg
    split_ifs at hg
    · exact ⟨_, rfl, (Option.some.inj hg).symm.trans (Facet.ofVector_eq_ok hf)⟩
    · have hj := FacetLog.lt_size_of_get? hg
      rw [FacetLog.size_ofSimplex] at hj
      exact absurd (((FacetLog.isSound_ofSimplex p).kind_eq_boundary_iff hg).2 hj) hkind
  · intro n v hv hn _
    obtain ⟨k, value, w, hvalue, hcorner, heq, huntested⟩ := hclique.exists_corner hv
    obtain rfl : i = k := by
      rw [huntested, not_not] at hn
      exact Option.some.inj hn
    rw [hlength, Vertex.corner?_eq_some hi, Option.some.injEq] at hcorner
    have hweight : v.weight = Facet.unitVector p i := by rw [heq, ← hcorner]
    have hleast : v.value = dot point v.weight := by
      rw [hweight, dot_unitVector hlength ⟨i, hi⟩, List.getD_eq_getElem?_getD, hvalue, heq,
        ← hcorner, Option.getD_some]
    exact (hweight ▸ ha).confirms (hleast ▸ le_add_of_nonneg_right hmargin)

theorem knows_of_build (h : build p point (some i) rays settings = .ok s) (hi : i < p)
    (hmargin : 0 ≤ settings.epsilon) (ha : P.IsAnswer (Facet.unitVector p i) (.point point))
    {known : Set (Answer ℚ)} (hpoint : .point point ∈ known) (hrays : ∀ r ∈ rays, .ray r ∈ known) :
    s.Knows P settings.epsilon known none := by
  obtain ⟨s₀, applied, hstart, hreport⟩ := build_eq_ok h
  have hknows := (knows_of_start hstart hi hmargin ha).mono (Set.singleton_subset_iff.2 hpoint)
  exact (hknows.reportRaysFrom_ends rays hrays .zero 0).of_ok hreport

end Skeleton

namespace Search

variable {σ ε α : Type} {oracle : Oracle σ ε ℚ} {search search' : Search ℚ} {margin : ℚ}

/-- The oracle may fail, but what it answers for a weight is right. -/
def Solves (oracle : Oracle σ ε ℚ) (P : Problem p) : Prop :=
  ∀ w st answer st', IsWeight p w → oracle w st = .ok answer st' → P.IsAnswer w answer

def answers (search : Search ℚ) : Set (Answer ℚ)
  | .point y => y ∈ search.points
  | .ray r => r ∈ search.rays

structure Tracks (search : Search ℚ) (P : Problem p) (margin : ℚ) : Prop where
  points_mem : ∀ y ∈ search.points, y ∈ P.outcomes
  points_ne : search.points ≠ []
  rays_mem : ∀ r ∈ search.rays, r ∈ P.directions
  knows : search.skeleton.Knows P margin search.answers none

theorem answers_subset (hpoints : search.points ⊆ search'.points)
    (hrays : search.rays ⊆ search'.rays) : search.answers ⊆ search'.answers := by
  intro a ha
  cases a with
  | point y => exact hpoints ha
  | ray r => exact hrays ha

/-- The probe of the unit weights. -/
theorem probe_ends (hsolves : Solves oracle P) (indices : List Nat)
    (hindices : ∀ i ∈ indices, i < p)
    (rays : List (List ℚ)) (hrays : ∀ r ∈ rays, r ∈ P.directions) (st : σ) :
    Ends (probe oracle p rays indices) st
      (fun found _ => (∀ r ∈ found.1, r ∈ P.directions) ∧ ∀ i y, found.2 = some (i, y) →
        i < p ∧ P.IsAnswer (Facet.unitVector p i) (.point y))
      (fun _ _ => True) := by
  induction indices generalizing rays st with
  | nil => exact .pure ⟨hrays, nofun⟩
  | cons i indices ih =>
    have hi : i < p := hindices i (List.mem_cons_self ..)
    apply (ask_ends oracle _ st).andThen
    intro answer st' hanswer
    have hright := hsolves _ _ _ _ (isWeight_unitVector ⟨i, hi⟩) hanswer
    cases answer with
    | point y =>
      refine .pure ⟨hrays, fun k y' hk => ?_⟩
      cases hk
      exact ⟨hi, hright⟩
    | ray r =>
      apply ih (fun k hk => hindices k (List.mem_cons_of_mem _ hk))
      intro r' hr'
      rcases List.mem_append.1 hr' with hr' | hr'
      · exact hrays r' hr'
      · exact List.mem_singleton.1 hr' ▸ hright.1

/-- One step takes a weight, and confirms or removes its vertex. -/
theorem step_ends (hsolves : Solves oracle P) (h : search.Tracks P margin) (st : σ) :
    Ends (step oracle search) st (fun search' _ => search'.Tracks P margin) (fun _ _ => True) := by
  apply (act_ends (Skeleton.nextWeight_ends search.skeleton) st fun _ _ _ => trivial).andThen
  rintro ⟨w, s⟩ st' ⟨hst, hs, n, v, hn, hv, hw⟩
  subst hst hs hw
  have hknows := h.knows.taken hn
  have hlast : search.skeleton.taken.mesh.graph.lastTaken = some n :=
    congrArg Graph.lastTaken (Graph.takeUntested_eq_some hn).2
  have hvertex : search.skeleton.taken.mesh.vertex? n = some v :=
    (Mesh.vertex?_takeUntested ..).trans hv
  apply (ask_ends oracle v.weight st').andThen
  intro answer st'' hanswer
  have hweight : IsWeight p v.weight := h.knows.objectives_eq ▸ h.knows.exact.isWeight hv
  have hright := hsolves _ _ _ _ hweight hanswer
  cases answer with
  | point y =>
    apply (act_ends (hknows.reportPoint_ends hlast hvertex hright) st''
      fun _ _ _ => trivial).andThen
    rintro ⟨improves, s⟩ _ ⟨-, hs⟩
    apply Ends.pure
    cases improves with
    | false => exact ⟨h.points_mem, h.points_ne, h.rays_mem, hs⟩
    | true =>
      refine ⟨?_, by simp, h.rays_mem, hs.mono ?_⟩
      · exact List.forall_mem_append.2 ⟨h.points_mem, List.forall_mem_singleton.2 hright.2.1⟩
      · apply Set.insert_subset
        · exact List.mem_append_right search.points (List.mem_singleton_self y)
        · exact answers_subset (List.subset_append_left ..) (List.Subset.refl _)
  | ray r =>
    apply (act_ends (hknows.reportRay_ends hlast hvertex hright) st''
      fun _ _ _ => trivial).andThen
    rintro ⟨_, s⟩ _ ⟨-, hs⟩
    apply Ends.pure
    refine ⟨h.points_mem, h.points_ne, ?_, hs.mono ?_⟩
    · exact List.forall_mem_append.2 ⟨h.rays_mem, List.forall_mem_singleton.2 hright.1⟩
    · apply Set.insert_subset
      · exact List.mem_append_right search.rays (List.mem_singleton_self r)
      · exact answers_subset (List.Subset.refl _) (List.subset_append_left ..)

/-- However large the budget is. -/
theorem explore_ends (hsolves : Solves oracle P) (budget : Nat)
    (h : search.Tracks P margin) (st : σ) :
    Ends (explore oracle budget search) st (fun search' _ => search'.Tracks P margin)
      (fun _ _ => True) := by
  induction budget generalizing search st with
  | zero => exact .pure h
  | succ budget ih =>
    unfold explore
    split_ifs
    · exact (step_ends hsolves h st).andThen fun search' st' hs => ih hs st'
    · exact .pure h

theorem run_ends (hsolves : Solves oracle P) (hmargin : 0 ≤ settings.epsilon) (budget : Nat)
    (st : σ) : Ends (run oracle p settings budget) st
      (fun search _ => search.Tracks P settings.epsilon) (fun _ _ => True) := by
  unfold run
  split_ifs
  · exact .bind (.throw trivial)
  apply (probe_ends hsolves (List.range p) (fun i => List.mem_range.1) [] (by simp) st).andThen
  rintro ⟨rays, first⟩ st' ⟨hrays, hfirst⟩
  cases first with
  | none => exact .throw trivial
  | some found =>
    obtain ⟨i, y⟩ := found
    obtain ⟨hi, hright⟩ := hfirst i y rfl
    cases hs : Skeleton.build p y (some i) rays settings with
    | error cause =>
      simp only [hs]
      exact .throw trivial
    | ok s =>
      simp only [hs]
      apply explore_ends hsolves
      refine ⟨List.forall_mem_singleton.2 hright.2.1, by simp, hrays, ?_⟩
      exact Skeleton.knows_of_build hs hi hmargin hright (List.mem_singleton_self y) fun r hr => hr

/-- A search with a right oracle that leaves no weight untested. The returned points are attained,
the returned rays restrict the weights as all directions do, and over each weight that they leave,
the least of the returned points is as low as all outcomes, but for the margin. -/
theorem correct_of_complete (hsolves : Solves oracle P) (hmargin : 0 ≤ settings.epsilon)
    {budget : Nat} {st st' : σ} (h : run oracle p settings budget st = .ok search st')
    (hcomplete : search.isComplete) :
    (∀ y ∈ search.points, y ∈ P.outcomes) ∧ ∀ w, IsWeight p w →
      ((∀ r ∈ P.directions, 0 ≤ dot r w) ↔ ∀ r ∈ search.rays, 0 ≤ dot r w) ∧
      ((∀ r ∈ P.directions, 0 ≤ dot r w) → ∃ y ∈ search.points, ∀ y' ∈ P.outcomes,
        dot y w - settings.epsilon ≤ dot y' w) := by
  have htracks := (run_ends hsolves hmargin budget st).of_ok h
  have hdone : search.skeleton.mesh.graph.untested = [] := by
    simpa [isComplete, Skeleton.hasNextWeight] using hcomplete
  refine ⟨htracks.points_mem, fun w hw => ⟨⟨?_, ?_⟩, ?_⟩⟩
  · exact fun hbounded r hr => hbounded r (htracks.rays_mem r hr)
  · exact fun hrays => htracks.knows.bounded hdone hw hrays
  · intro hbounded
    apply htracks.knows.exists_point hdone htracks.points_ne (fun y hy => hy) hw
    exact fun r hr => hbounded r (htracks.rays_mem r hr)

/-- Two outcomes, and a direction that keeps the weight away from the second objective alone. -/
def twoOutcomes : Problem 2 where
  outcomes := {[0, 2], [2, 0]}
  directions := {[2, -1]}
  outcomes_length := by simp
  directions_length := by simp

def twoOutcomesOracle : Oracle Unit Empty ℚ := fun w =>
  pure (if dot [2, -1] w < 0 then .ray [2, -1]
    else if dot [0, 2] w ≤ dot [2, 0] w then .point [0, 2] else .point [2, 0])

theorem twoOutcomesOracle_solves : Solves twoOutcomesOracle twoOutcomes := by
  intro w st answer st' _ h
  obtain ⟨rfl, -⟩ := EStateM.Result.ok.inj h
  split_ifs with hray hle
  · exact ⟨by simp [twoOutcomes], hray⟩
  · exact ⟨by simpa [twoOutcomes, Problem.Bounded] using hray, by simp [twoOutcomes],
      by simpa [twoOutcomes] using hle⟩
  · exact ⟨by simpa [twoOutcomes, Problem.Bounded] using hray, by simp [twoOutcomes],
      by simpa [twoOutcomes] using (not_le.1 hle).le⟩

theorem correct_for_two_outcomes : ∃ search st',
    run twoOutcomesOracle 2 ⟨1/10, true, .deferred⟩ 5 () = .ok search st' ∧ search.isComplete ∧
      (∀ y ∈ search.points, y ∈ twoOutcomes.outcomes) ∧
        ∃ y ∈ search.points, ∀ y' ∈ twoOutcomes.outcomes,
          dot y [1/2, 1/2] - 1/10 ≤ dot y' [1/2, 1/2] := by
  have hcomplete : (match run twoOutcomesOracle 2 ⟨1/10, true, .deferred⟩ 5 () with
      | .ok search _ => search.isComplete
      | .error .. => false) = true := by
    decide +kernel
  have hmargin : (0 : ℚ) ≤ 1/10 := by norm_num
  have hweight : IsWeight 2 [1/2, 1/2] := ⟨rfl, by norm_num, by norm_num⟩
  cases h : run twoOutcomesOracle 2 ⟨1/10, true, .deferred⟩ 5 () with
  | error e st' =>
    rw [h] at hcomplete
    cases hcomplete
  | ok search st' =>
    rw [h] at hcomplete
    obtain ⟨hpoints, hall⟩ := correct_of_complete twoOutcomesOracle_solves hmargin h hcomplete
    refine ⟨search, st', rfl, hcomplete, hpoints, (hall _ hweight).2 ?_⟩
    intro r hr
    obtain rfl := Finset.mem_singleton.1 hr
    norm_num [dot]

end Search

end WeightPolyhedron
