import WeightPolyhedron.Proofs.Exact.Cut
import WeightPolyhedron.Proofs.Exact.Start
import WeightPolyhedron.Proofs.Skeleton.Sound

/-!
Exact skeletons. With a margin from zero on, a facet only cuts where it is violated, and so every
step keeps the mesh exact; no cut ever fails.
-/

namespace WeightPolyhedron

theorem Mesh.IsExact.takeUntested {m : Mesh ℚ} {log : FacetLog ℚ} {p : Nat} (h : m.IsExact log p) :
    Mesh.IsExact { m with graph := m.graph.takeUntested.2 } log p := by
  have hnodes : ({ m with graph := m.graph.takeUntested.2 } : Mesh ℚ).nodeSet = m.nodeSet := by
    ext n
    simp only [nodeSet, Graph.contains, Graph.takeUntested_nodes]
  have hfacets : ({ m with graph := m.graph.takeUntested.2 } : Mesh ℚ).facetsAt = m.facetsAt := by
    funext n
    rw [facetsAt, vertex?_takeUntested, facetsAt]
  have hpoints : ({ m with graph := m.graph.takeUntested.2 } : Mesh ℚ).pointAt p = m.pointAt p := by
    funext n
    rw [pointAt, vertex?_takeUntested, pointAt]
  refine ⟨?_, by rw [hnodes, hfacets, hpoints]; exact h.resolved⟩
  intro k u hk hu hadj
  rw [hnodes] at hk hu
  rw [hfacets] at hadj
  simpa only [Graph.neighbors, Graph.takeUntested_nodes] using h.complete hk hu hadj

namespace Skeleton

variable {s s' : Skeleton ℚ} {f : Facet ℚ} {seed n : NodeKey} {objectives : Nat} {point : List ℚ}
  {originating : Option Nat} {rays : List (List ℚ)} {settings : Settings ℚ}

structure IsExact (s : Skeleton ℚ) : Prop where
  sound : s.IsSound
  mesh : s.mesh.IsExact s.log s.objectives
  margin_nonneg : 0 ≤ s.settings.epsilon

theorem isExact_of_start (h : start objectives point originating settings = .ok s)
    (hmargin : 0 ≤ settings.epsilon) : s.IsExact := by
  have hsound := isSound_of_start h
  obtain ⟨hp, hlength, f, hf, rfl⟩ := start_eq_ok h
  obtain ⟨nodes, origin, hclique⟩ := clique_cornerMesh point originating
  rw [hlength] at hclique
  have hsize := FacetLog.size_ofSimplex (α := ℚ) objectives
  refine ⟨hsound, hclique.isExact hsound.log hp ?_ ?_ hlength, hmargin⟩
  · rw [FacetLog.size_snoc, hsize]
  · rw [FacetLog.get?_ofSimplex_snoc, Facet.ofVector_eq_ok hf]

/-- A facet that passes the test of the settings violates the vertex strictly. -/
theorem IsExact.violatedAt (h : s.IsExact) (ht : s.Tested f (s.toleranceFor f) n) :
    s.mesh.ViolatedAt f n := by
  apply ht.violatedAt
  intro x hx
  exact hx.trans_le (neg_nonpos.2 h.margin_nonneg)

/-- A cut of an exact skeleton succeeds, and replaces what the facet violates. -/
theorem IsExact.cut (h : s.IsExact) (hf : f.IsReport s.objectives)
    (hseed : s.mesh.ViolatedAt f seed) (hcut : s.cut f seed = .ok () s') :
    ∃ r created origin,
    Cut.IsExactCut s.mesh s'.mesh s.objectives s.log f seed r created origin := by
  obtain ⟨-, -, hlog, -, r, created, origin, hr, heffect⟩ := h.sound.cut_eq_ok hf hcut
  rw [hlog] at heffect
  exact ⟨r, created, origin, h.sound.mesh, h.sound.log, hf, h.mesh, hseed,
    Mesh.isAround_of_violatedRegion hr, heffect⟩

theorem IsExact.cut_ne_error (h : s.IsExact) (hf : f.IsReport s.objectives)
    (hseed : s.mesh.ViolatedAt f seed) {e : Error ℚ} : s.cut f seed ≠ .error e s' := by
  intro hcut
  obtain ⟨-, -, -, -, -, hobstructed, -⟩ := h.sound.cut_eq_error hf hcut
  exact Mesh.not_obstructed h.sound.mesh hf hseed hobstructed

theorem IsExact.step (h : s.IsExact) (hstep : Step s s') : s'.IsExact := by
  obtain ⟨hsound, hobj, hset⟩ := h.sound.step hstep
  refine ⟨hsound, ?_, hset ▸ h.margin_nonneg⟩
  cases hstep with
  | take => exact h.mesh.takeUntested
  | note => exact h.mesh
  | cut report tested done =>
    obtain ⟨r, created, origin, hcut⟩ := h.cut report (h.violatedAt tested) done
    obtain ⟨-, -, hlog, -⟩ := h.sound.cut_eq_ok report done
    rw [hobj, hlog]
    exact hcut.isExact
  | failedCut report tested failed =>
    exact absurd failed (h.cut_ne_error report (h.violatedAt tested))

theorem IsExact.reaches (h : s.IsExact) (hsteps : Relation.ReflTransGen Step s s') :
    s'.IsExact := by
  induction hsteps with
  | refl => exact h
  | tail _ hstep ih => exact ih.step hstep

theorem isExact_after (h : build objectives point originating rays settings = .ok s)
    (hmargin : 0 ≤ settings.epsilon) (requests : List (Request ℚ)) : (s.after requests).IsExact :=
  after_induction h (fun _ hs => isExact_of_start hs hmargin) (fun _ _ hs hstep => hs.step hstep)
    requests

end Skeleton

end WeightPolyhedron
