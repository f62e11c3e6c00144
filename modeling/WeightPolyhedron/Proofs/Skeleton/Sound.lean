import WeightPolyhedron.Proofs.Audit
import WeightPolyhedron.Proofs.Cut.Source
import WeightPolyhedron.Proofs.Skeleton.Start
import WeightPolyhedron.Proofs.Skeleton.Step

/-!
Sound skeletons. Nothing is assumed of the arithmetic: the first point gives a sound skeleton, each
step keeps it sound, and so it stays sound over any history of requests, failed ones included.
-/

namespace WeightPolyhedron

namespace Skeleton

variable {α : Type} [Scalar α] {s s' : Skeleton α} {f : Facet α} {seed : NodeKey} {e : Error α}
  {objectives : Nat} {point : List α} {originating : Option Nat} {settings : Settings α}

structure IsSound (s : Skeleton α) : Prop where
  positive : 0 < s.objectives
  log : s.log.IsSound s.objectives
  mesh : s.mesh.IsSound s.objectives s.log.size
  failedAudits_eq : s.failedAudits = 0

omit [Scalar α] in
theorem audited_eq (bound : Nat) (h : s.mesh.IsSound s.objectives bound) : s.audited = s := by
  simp [audited, h.auditStructure_eq_ok]

/-- The skeleton of a first point that makes a facet. -/
theorem start_eq (hp : objectives ≠ 0) (hlength : point.length = objectives)
    (hcorner : originating.filter (objectives ≤ ·) = none) (hf : Facet.ofPoint point = .ok f)
    (settings : Settings α) : start objectives point originating settings = .ok {
      objectives
      log := (FacetLog.ofSimplex objectives).snoc f
      mesh := cornerMesh point objectives originating
      settings
      stats := .zero
      failedAudits := 0 } := by
  have hreport : f.IsReport objectives := ⟨point, hlength, .inl hf⟩
  have hpush := (FacetLog.ofSimplex objectives).push_eq hreport.objectives_eq
  rw [FacetLog.size_ofSimplex] at hpush
  obtain ⟨nodes, origin, hclique⟩ := clique_cornerMesh point originating
  rw [hlength] at hclique
  refine Eq.trans ?_ (congrArg Except.ok (audited_eq (objectives + 1) hclique.sound))
  simp [start, checkLength, FacetLog.pushPoint, hp, hlength, hcorner, hf, hpush, bind,
    Except.bind, pure, Except.pure]

/-- Whether a first point is taken does not depend on the settings. -/
theorem start_cases (objectives : Nat) (point : List α) (originating : Option Nat) :
    (∃ e, ∀ settings, start objectives point originating settings = .error e) ∨
      (0 < objectives ∧ point.length = objectives ∧ (∀ i ∈ originating, i < objectives) ∧
        ∃ f, Facet.ofPoint point = .ok f ∧
          ∀ settings, start objectives point originating settings = .ok {
            objectives
            log := (FacetLog.ofSimplex objectives).snoc f
            mesh := cornerMesh point objectives originating
            settings
            stats := .zero
            failedAudits := 0 }) := by
  by_cases hp : objectives = 0
  · exact .inl ⟨.noObjectives, fun _ => by rw [start, if_pos hp]; rfl⟩
  by_cases hlength : point.length = objectives
  swap
  · refine .inl ⟨.wrongLength objectives point.length, fun _ => ?_⟩
    simp [start, checkLength, hp, hlength, bind, Except.bind]
  cases hcorner : originating.filter (objectives ≤ ·) with
  | some index =>
    refine .inl ⟨.cornerOutOfRange index objectives, fun _ => ?_⟩
    simp [start, checkLength, hp, hlength, hcorner, throw, throwThe, MonadExceptOf.throw, bind,
      Except.bind]
  | none =>
    cases hf : Facet.ofPoint point with
    | error cause =>
      refine .inl ⟨.facet cause, fun _ => ?_⟩
      simp [start, checkLength, FacetLog.pushPoint, hp, hlength, hcorner, hf, throw, throwThe,
        MonadExceptOf.throw, bind, Except.bind]
    | ok f =>
      have hindex : ∀ i ∈ originating, i < objectives := by
        simpa [Option.filter_eq_none_iff] using hcorner
      exact .inr ⟨Nat.pos_of_ne_zero hp, hlength, hindex, f, rfl, start_eq hp hlength hcorner hf⟩

/-- The skeleton of a first point. -/
theorem start_eq_ok (h : start objectives point originating settings = .ok s) :
    0 < objectives ∧ point.length = objectives ∧ ∃ f, Facet.ofPoint point = .ok f ∧
      s = {
        objectives
        log := (FacetLog.ofSimplex objectives).snoc f
        mesh := cornerMesh point objectives originating
        settings
        stats := .zero
        failedAudits := 0 } := by
  rcases start_cases objectives point originating with ⟨e, he⟩ | ⟨hp, hlength, -, f, hf, hstart⟩
  · rw [he] at h
    cases h
  · exact ⟨hp, hlength, f, hf, Except.ok.inj (h.symm.trans (hstart settings))⟩

/-- The originating corner is one of the corners. -/
theorem originating_lt_of_start (h : start objectives point originating settings = .ok s) :
    ∀ i ∈ originating, i < objectives := by
  rcases start_cases objectives point originating with ⟨e, he⟩ | ⟨-, -, hindex, -⟩
  · rw [he] at h
    cases h
  · exact hindex

theorem isSound_of_start (h : start objectives point originating settings = .ok s) : s.IsSound := by
  obtain ⟨hp, hlength, f, hf, rfl⟩ := start_eq_ok h
  obtain ⟨nodes, origin, hclique⟩ := clique_cornerMesh point originating
  rw [hlength] at hclique
  refine ⟨hp, (FacetLog.isSound_ofSimplex _).snoc ⟨point, hlength, .inl hf⟩, ?_, rfl⟩
  simpa [FacetLog.size_ofSimplex] using hclique.sound

/-- A cut that succeeds. -/
theorem IsSound.cut_eq_ok (h : s.IsSound) (hf : f.IsReport s.objectives)
    (hcut : s.cut f seed = .ok () s') :
    s'.objectives = s.objectives ∧ s'.settings = s.settings ∧ s'.log = s.log.snoc f ∧
      s'.failedAudits = s.failedAudits ∧ ∃ r created origin,
        s.mesh.violatedRegion f seed = .ok r ∧
          Cut.Effect s.mesh s'.mesh s.objectives s'.log s.log.size f r created origin := by
  have hpush := s.log.push_eq (hf.objectives_eq.trans h.log.objectives_eq.symm)
  have hends := Cut.cut_ends (s.log.snoc f) f seed h.mesh s.settings.retention
  simp only [cut, hpush] at hcut
  cases hm : Mesh.cut (s.log.snoc f) s.log.size f seed s.settings.retention s.mesh with
  | error cause m => simp [hm] at hcut
  | ok stats m =>
    obtain ⟨r, created, origin, hr, heffect⟩ := hends.of_ok hm
    simp only [hm, EStateM.Result.ok.injEq, true_and] at hcut
    rw [audited_eq (s.log.size + 1) heffect.sound] at hcut
    subst hcut
    exact ⟨rfl, rfl, rfl, rfl, r, created, origin, hr, heffect⟩

/-- A cut that fails. -/
theorem IsSound.cut_eq_error (h : s.IsSound) (hf : f.IsReport s.objectives)
    (hcut : s.cut f seed = .error e s') :
    s'.objectives = s.objectives ∧ s'.settings = s.settings ∧ s'.log = s.log.snoc f ∧
      s'.failedAudits = s.failedAudits ∧ s'.mesh.IsSound s.objectives (s.log.size + 1) ∧
        Cut.Obstructed s.mesh (s.log.snoc f) s.log.size f seed ∧ s'.stats = s.stats ∧
          (s.mesh.graph.contains seed → ∃ cause, e = .cut (.vertex cause)) := by
  have hpush := s.log.push_eq (hf.objectives_eq.trans h.log.objectives_eq.symm)
  have hends := Cut.cut_ends (s.log.snoc f) f seed h.mesh s.settings.retention
  simp only [cut, hpush] at hcut
  cases hm : Mesh.cut (s.log.snoc f) s.log.size f seed s.settings.retention s.mesh with
  | ok stats m => simp [hm] at hcut
  | error cause m =>
    obtain ⟨hsound, hobstructed, hcause⟩ := hends.of_error hm
    simp only [hm, EStateM.Result.error.injEq] at hcut
    obtain ⟨rfl, rfl⟩ := hcut
    refine ⟨rfl, rfl, rfl, rfl, hsound, hobstructed, rfl, fun hseed => ?_⟩
    obtain ⟨c, rfl⟩ := hcause hseed
    exact ⟨c, rfl⟩

/-- What a cut leaves of the vertices; one that fails removes none. -/
theorem IsSound.cut_leaves (h : s.IsSound) (hf : f.IsReport s.objectives) (seed : NodeKey) :
    Ends (cut f seed) s
      (fun _ s' => s'.log = s.log.snoc f ∧ ∃ r, s.mesh.violatedRegion f seed = .ok r ∧
        Cut.Leaves s.mesh s'.mesh s.objectives s'.log s.log.size f r)
      (fun _ s' => s'.log = s.log.snoc f ∧
        Cut.Leaves s.mesh s'.mesh s.objectives s'.log s.log.size f ⟨[], []⟩) := by
  refine .intro (fun _ s' hcut => ?_) fun e s' hcut => ?_
  · obtain ⟨-, -, hlog, -, r, created, origin, hregion, heffect⟩ := h.cut_eq_ok hf hcut
    exact ⟨hlog, r, hregion, heffect.leaves h.mesh⟩
  · have hpush := s.log.push_eq (hf.objectives_eq.trans h.log.objectives_eq.symm)
    have hends := Cut.cut_leaves (s.log.snoc f) f seed h.mesh s.settings.retention
    simp only [cut, hpush] at hcut
    cases hm : Mesh.cut (s.log.snoc f) s.log.size f seed s.settings.retention s.mesh with
    | ok stats m => simp [hm] at hcut
    | error cause m =>
      simp only [hm, EStateM.Result.error.injEq] at hcut
      obtain ⟨-, rfl⟩ := hcut
      exact ⟨rfl, hends.of_error hm⟩

/-- A facet was stored, and a sound mesh was left. -/
theorem IsSound.of_stored (h : s.IsSound) (hf : f.IsReport s.objectives)
    (hobj : s'.objectives = s.objectives) (hlog : s'.log = s.log.snoc f)
    (hfail : s'.failedAudits = s.failedAudits)
    (hmesh : s'.mesh.IsSound s.objectives (s.log.size + 1)) : s'.IsSound := by
  refine ⟨hobj ▸ h.positive, ?_, ?_, hfail.trans h.failedAudits_eq⟩
  · rw [hobj, hlog]
    exact h.log.snoc hf
  · rw [hobj, hlog, FacetLog.size_snoc]
    exact hmesh

/-- Each step keeps a skeleton sound, and its number of objectives and settings as they are. -/
theorem IsSound.step (h : s.IsSound) (hstep : Step s s') :
    s'.IsSound ∧ s'.objectives = s.objectives ∧ s'.settings = s.settings := by
  cases hstep with
  | take =>
    exact ⟨⟨h.positive, h.log, h.mesh.takeUntested, h.failedAudits_eq⟩, rfl, rfl⟩
  | note stats => exact ⟨⟨h.positive, h.log, h.mesh, h.failedAudits_eq⟩, rfl, rfl⟩
  | cut report tested done =>
    obtain ⟨hobj, hset, hlog, hfail, r, created, origin, -, heffect⟩ := h.cut_eq_ok report done
    exact ⟨h.of_stored report hobj hlog hfail heffect.sound, hobj, hset⟩
  | failedCut report tested failed =>
    obtain ⟨hobj, hset, hlog, hfail, hmesh, -⟩ := h.cut_eq_error report failed
    exact ⟨h.of_stored report hobj hlog hfail hmesh, hobj, hset⟩

/-- A step that stores no facet leaves all vertices as they are. -/
theorem IsSound.step_cases (h : s.IsSound) (hstep : Step s s') :
    (s'.log = s.log ∧ ∀ n, s'.mesh.vertex? n = s.mesh.vertex? n) ∨
      ∃ f r, f.IsReport s.objectives ∧ s'.log = s.log.snoc f ∧
        Cut.Leaves s.mesh s'.mesh s.objectives s'.log s.log.size f r := by
  cases hstep with
  | take => exact .inl ⟨rfl, s.mesh.vertex?_takeUntested⟩
  | note => exact .inl ⟨rfl, fun _ => rfl⟩
  | cut report _ done =>
    obtain ⟨hlog, r, -, hleaves⟩ := (h.cut_leaves report _).of_ok done
    exact .inr ⟨_, r, report, hlog, hleaves⟩
  | failedCut report _ failed =>
    obtain ⟨hlog, hleaves⟩ := (h.cut_leaves report _).of_error failed
    exact .inr ⟨_, _, report, hlog, hleaves⟩

theorem IsSound.reaches (h : s.IsSound) (hsteps : Relation.ReflTransGen Step s s') :
    s'.IsSound ∧ s'.objectives = s.objectives ∧ s'.settings = s.settings := by
  induction hsteps with
  | refl => exact ⟨h, rfl, rfl⟩
  | tail _ hstep ih =>
    obtain ⟨hsound, hobj, hset⟩ := ih
    obtain ⟨hsound', hobj', hset'⟩ := hsound.step hstep
    exact ⟨hsound', hobj'.trans hobj, hset'.trans hset⟩

/-- A facet that has been made is refused by no sound skeleton. -/
theorem IsSound.canTake {make : List α → Except (Facet.Error α) (Facet α)} {values : List α}
    (h : s.IsSound) (hlength : values.length = s.objectives) (hf : make values = .ok f) :
    s.CanTake make values :=
  ⟨⟨hlength, f, hf⟩, fun _ hn =>
    h.mesh.contains_iff_vertex?.1 (h.mesh.simple.lastTaken_contains hn)⟩

omit [Scalar α] in
theorem taken_eq_self (h : s.mesh.graph.untested = []) : s.taken = s := by
  rw [taken, Graph.takeUntested_of_nil h]

/-- Weights run out when all are tested, and only then. -/
theorem IsSound.nextWeight_eq (h : s.IsSound) :
    if s.mesh.graph.untested = [] then nextWeight s = .error .nothingUntested s
    else ∃ weight, nextWeight s = .ok weight s.taken := by
  have hends := nextWeight_ends s
  cases hnext : nextWeight s with
  | ok weight s' =>
    obtain ⟨rfl, n, v, hn, -⟩ := hends.of_ok hnext
    have hne : s.mesh.graph.untested ≠ [] :=
      List.ne_nil_of_mem (Graph.takeUntested_eq_some hn).1
    rw [if_neg hne]
    exact ⟨weight, rfl⟩
  | error e s' =>
    obtain ⟨rfl, ⟨hnil, rfl⟩ | ⟨n, hn, hnone⟩⟩ := hends.of_error hnext
    · rw [if_pos hnil, taken_eq_self hnil]
    · obtain ⟨v, hv, -⟩ := h.mesh.stored (h.mesh.simple.untested_contains hn)
      exact absurd hv (hnone v)

/-- Soundness, the number of objectives and the settings over a history of requests. -/
theorem isSound_after {rays : List (List α)}
    (h : build objectives point originating rays settings = .ok s) (requests : List (Request α)) :
    (s.after requests).IsSound ∧ (s.after requests).objectives = objectives ∧
      (s.after requests).settings = settings := by
  refine after_induction (P := fun s => s.IsSound ∧ s.objectives = objectives ∧
    s.settings = settings) h ?_ ?_ requests
  · intro s₀ hs₀
    obtain ⟨-, -, f, -, rfl⟩ := start_eq_ok hs₀
    exact ⟨isSound_of_start hs₀, rfl, rfl⟩
  · rintro t t' ⟨ht, hobj, hset⟩ hstep
    obtain ⟨ht', hobj', hset'⟩ := ht.step hstep
    exact ⟨ht', hobj'.trans hobj, hset'.trans hset⟩

/-- Whatever is asked of a skeleton, and whatever fails or is rounded meanwhile, the structural
audit finds nothing, and none has: vertices and nodes belong together, each vertex has as many
facets as there are objectives, the graph is simple, its edges join vertices with all facets but one
in common, and marks are on nodes of the graph. -/
theorem structure_after_build {rays : List (List α)}
    (h : build objectives point originating rays settings = .ok s) (requests : List (Request α)) :
    let t := s.after requests
    let g := t.mesh.graph
    t.mesh.auditStructure t.objectives = .ok () ∧ t.failedAudits = 0 ∧
      t.objectives = objectives ∧ 0 < objectives ∧
      (∀ i < objectives, t.log.get? i = Facet.boundary? objectives i) ∧
      (∀ n, g.contains n → ∃ v, t.mesh.vertex? n = some v ∧ v.node = some n ∧
        v.weight.length = objectives ∧ v.facets.length = objectives ∧
        v.facets.Pairwise (· < ·) ∧ ∀ i ∈ v.facets, i < t.log.size) ∧
      (∀ n, (g.neighbors n).Nodup) ∧
      (∀ n u, u ∈ g.neighbors n → n ∈ g.neighbors u ∧ u ≠ n ∧ g.contains n ∧ g.contains u ∧
        ∀ v w, t.mesh.vertex? n = some v → t.mesh.vertex? u = some w →
          (v.facetSet ∩ w.facetSet).card + 1 = objectives) ∧
      (∀ n ∈ g.untested, g.contains n) ∧
      ∀ n, g.lastTaken = some n → g.contains n ∧ n ∉ g.untested := by
  obtain ⟨ht, hobj, -⟩ := isSound_after h requests
  intro t g
  have hmesh : t.mesh.IsSound objectives t.log.size := hobj ▸ ht.mesh
  refine ⟨hobj ▸ hmesh.auditStructure_eq_ok, ht.failedAudits_eq, hobj, hobj ▸ ht.positive,
    hobj ▸ ht.log.boundary, ?_, hmesh.simple.nodup, ?_, fun n hn =>
      hmesh.simple.untested_contains hn,
    fun n hn => ⟨hmesh.simple.lastTaken_contains hn, hmesh.lastTaken_tested hn⟩⟩
  · intro n hn
    obtain ⟨v, hv, hnode, hshape⟩ := hmesh.stored hn
    exact ⟨v, hv, hnode, hshape.weight_length, hshape.facets_length, hshape.facets_sorted,
      hshape.facets_lt⟩
  · intro n u hu
    refine ⟨hmesh.simple.symm hu, ?_, Graph.contains_of_mem_neighbors hu,
      hmesh.simple.contains_neighbor hu, ?_⟩
    · intro hun
      exact hmesh.simple.irrefl n (hun ▸ hu)
    · intro v w hv hw
      exact (Vertex.isNeighbour_iff (hmesh.isShaped hv) (hmesh.isShaped hw)).1
        (hmesh.adjacent hu hv hw)

theorem structure_after_two_reports : ∃ s : Skeleton Rat,
    build 2 [3, 4] (some 0) [[1, -1]] ⟨0, true, .immediate⟩ = .ok s ∧
      (s.after [.nextWeight, .point [1, 6], .ray [-1]]).failedAudits = 0 := by
  have hok : (build (α := Rat) 2 [3, 4] (some 0) [[1, -1]] ⟨0, true, .immediate⟩).isOk := by
    decide +kernel
  cases hs : build (α := Rat) 2 [3, 4] (some 0) [[1, -1]] ⟨0, true, .immediate⟩ with
  | error e => simp [hs, Except.isOk, Except.toBool] at hok
  | ok s => exact ⟨s, rfl, (structure_after_build hs _).2.1⟩

end Skeleton

end WeightPolyhedron
