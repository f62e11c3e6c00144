import WeightPolyhedron.Proofs.Cut.Alike
import WeightPolyhedron.Proofs.Skeleton.Course

/-!
What becomes of removed vertices cannot be observed. Skeletons that differ in this setting alone
give the same answers and look the same after any history of requests, and only the number of stored
vertices tells them apart.
-/

namespace WeightPolyhedron

namespace Skeleton

variable {α : Type} {s s' t : Skeleton α}

/-- The skeletons differ in the setting for removed vertices, and in what is stored of those. -/
structure Alike (s s' : Skeleton α) : Prop where
  mesh : s.mesh.Alike s.settings.retention s'.settings.retention s'.mesh
  objectives_eq : s.objectives = s'.objectives
  log_eq : s.log = s'.log
  epsilon_eq : s.settings.epsilon = s'.settings.epsilon
  checkInvariants_eq : s.settings.checkInvariants = s'.settings.checkInvariants
  stats_eq : s.stats = s'.stats
  failedAudits_eq : s.failedAudits = s'.failedAudits

namespace Alike

variable (h : s.Alike s')

include h

theorem audited : s.audited.Alike s'.audited := by
  have haudit : s.mesh.auditStructure s.objectives = s'.mesh.auditStructure s'.objectives := by
    rw [h.mesh.auditStructure_eq, h.objectives_eq]
  unfold Skeleton.audited
  rw [h.checkInvariants_eq, haudit]
  split
  · split
    · exact h
    · exact { h with failedAudits_eq := congrArg (· + 1) h.failedAudits_eq }
  · exact h

theorem tolerance_eq : s.tolerance = s'.tolerance := congrArg Tolerance.margin h.epsilon_eq

theorem facetOf {make : List α → Except (Facet.Error α) (Facet α)} (values : List α) :
    EndAlike (facetOf make values) (facetOf make values) s s'
      (fun _ t t' => t = s ∧ t' = s') Alike := by
  unfold EndAlike Skeleton.facetOf
  rw [h.objectives_eq]
  cases checkLength s'.objectives values with
  | error e => exact ⟨rfl, h⟩
  | ok _ =>
    cases make values with
    | error cause => exact ⟨rfl, h⟩
    | ok f => exact ⟨rfl, rfl, rfl⟩

theorem vertexAt (n : NodeKey) : EndAlike (vertexAt n) (vertexAt n) s s'
    (fun _ t t' => t = s ∧ t' = s') Alike := by
  unfold EndAlike Skeleton.vertexAt
  rw [h.mesh.vertexAt_eq]
  cases s'.mesh.vertexAt n with
  | error e => exact ⟨rfl, h⟩
  | ok v => exact ⟨rfl, rfl, rfl⟩

theorem nextWeight : EndAlike nextWeight nextWeight s s' (fun _ => Alike) Alike := by
  obtain ⟨hfirst, hgraph⟩ := h.mesh.graph.takeUntested
  have htaken : s.taken.Alike s'.taken := by
    refine { h with
      mesh := ⟨hgraph, fun n => ?_, h.mesh.filed.takeUntested, h.mesh.filed'.takeUntested⟩ }
    rw [taken, taken, Mesh.vertex?_takeUntested, Mesh.vertex?_takeUntested, h.mesh.vertex?_eq]
  refine .bind (.modifyGet hfirst ?_)
  dsimp only
  cases s.mesh.graph.takeUntested.1 with
  | none => exact .throw htaken
  | some n =>
    refine (htaken.vertexAt n).andThen ?_
    rintro v s s' ⟨rfl, rfl⟩
    exact .pure htaken

variable [Scalar α]

theorem cut (f : Facet α) (seed : NodeKey) :
    EndAlike (cut f seed) (cut f seed) s s' (fun _ => Alike) Alike := by
  unfold EndAlike Skeleton.cut
  rw [← h.log_eq]
  cases s.log.push f with
  | error cause => exact ⟨rfl, h⟩
  | ok stored =>
    obtain ⟨id, log⟩ := stored
    have hends := h.mesh.cut log id f seed
    cases hcut : Mesh.cut log id f seed s.settings.retention s.mesh with
    | ok stats m =>
      obtain ⟨m', hcut', hm⟩ := hends.of_ok hcut
      simp only [hcut, hcut']
      exact ⟨trivial, audited { h with mesh := hm, log_eq := rfl, stats_eq := rfl }⟩
    | error cause m =>
      obtain ⟨m', hcut', hm⟩ := hends.of_error hcut
      simp only [hcut, hcut']
      exact ⟨trivial, { h with mesh := hm, log_eq := rfl }⟩

omit [Scalar α] in
theorem reject : EndAlike reject reject s s' (fun _ => Alike) Alike :=
  .modify { h with stats_eq := rfl }

theorem cutAnywhere (f : Facet α) (tolerance : Tolerance α) :
    EndAlike (cutAnywhere f tolerance) (cutAnywhere f tolerance) s s' (fun _ => Alike) Alike := by
  refine .get ?_
  rw [h.mesh.findViolated_eq]
  cases s'.mesh.findViolated f tolerance with
  | some seed => exact (h.cut f seed).andThen fun _ _ _ ht => .pure ht
  | none => exact h.reject.andThen fun _ _ _ ht => .pure ht

theorem reportPoint (point : List α) :
    EndAlike (reportPoint point) (reportPoint point) s s' (fun _ => Alike) Alike := by
  refine (h.facetOf point).andThen ?_
  rintro f s s' ⟨rfl, rfl⟩
  refine .get (.get ?_)
  rw [h.tolerance_eq, h.mesh.graph.lastTaken_eq]
  cases s'.mesh.graph.lastTaken with
  | none => exact h.cutAnywhere f _
  | some seed =>
    refine (h.vertexAt seed).andThen ?_
    rintro v _ _ ⟨rfl, rfl⟩
    split_ifs
    · exact (h.cut f seed).andThen fun _ _ _ ht => .pure ht
    · exact h.reject.andThen fun _ _ _ ht => .pure ht

theorem reportPointAnywhere (point : List α) :
    EndAlike (reportPointAnywhere point) (reportPointAnywhere point) s s'
      (fun _ => Alike) Alike := by
  refine (h.facetOf point).andThen ?_
  rintro f s s' ⟨rfl, rfl⟩
  refine .get ?_
  rw [h.tolerance_eq]
  exact h.cutAnywhere f _

theorem reportRay (ray : List α) :
    EndAlike (reportRay ray) (reportRay ray) s s' (fun _ => Alike) Alike := by
  refine (h.facetOf ray).andThen ?_
  rintro f s s' ⟨rfl, rfl⟩
  refine .get ?_
  rw [h.mesh.graph.lastTaken_eq]
  cases s'.mesh.graph.lastTaken with
  | none => exact .map (h.cutAnywhere f .strict)
  | some seed =>
    refine (h.vertexAt seed).andThen ?_
    rintro v _ _ ⟨rfl, rfl⟩
    split_ifs
    · exact h.cut f seed
    · exact .map (h.cutAnywhere f .strict)

theorem reportRayAnywhere (ray : List α) :
    EndAlike (reportRayAnywhere ray) (reportRayAnywhere ray) s s' (fun _ => Alike) Alike := by
  refine (h.facetOf ray).andThen ?_
  rintro f s s' ⟨rfl, rfl⟩
  exact h.cutAnywhere f .strict

omit h in
theorem reportRaysFrom (h : s.Alike s') (total : CutStats) (applied : Nat) (rays : List (List α)) :
    EndAlike (reportRaysFrom total applied rays) (reportRaysFrom total applied rays) s s'
      (fun _ => Alike) Alike := by
  induction rays generalizing s s' total applied with
  | nil => exact .bind (.modify (.pure { h with stats_eq := rfl }))
  | cons ray rays ih =>
    refine (h.reportRayAnywhere ray).andThen fun cutSome t t' ht => .get ?_
    rw [ht.stats_eq]
    exact ih ht _ _

theorem perform (request : Request α) :
    EndAlike request.perform request.perform s s' (fun _ => Alike) Alike := by
  cases request with
  | nextWeight => exact .map h.nextWeight
  | point outcome => exact .map (h.reportPoint outcome)
  | pointAnywhere outcome => exact .map (h.reportPointAnywhere outcome)
  | ray direction => exact .map (h.reportRay direction)
  | rayAnywhere direction => exact .map (h.reportRayAnywhere direction)
  | rays directions => exact .map (h.reportRaysFrom .zero 0 directions)

/-- The same is answered to a request, and the skeletons after it differ no more than before. -/
theorem respond (request : Request α) : (s.respond request).1 = (s'.respond request).1 ∧
    (s.respond request).2.Alike (s'.respond request).2 := by
  have hends := h.perform request
  unfold Skeleton.respond
  cases hperform : request.perform s with
  | ok response t =>
    obtain ⟨t', hperform', ht⟩ := hends.of_ok hperform
    simp only [hperform']
    exact ⟨trivial, ht⟩
  | error e t =>
    obtain ⟨t', hperform', ht⟩ := hends.of_error hperform
    simp only [hperform']
    exact ⟨trivial, ht⟩

omit h in
theorem after (h : s.Alike s') (requests : List (Request α)) :
    (s.after requests).Alike (s'.after requests) := by
  induction requests generalizing s s' with
  | nil => exact h
  | cons request requests ih => exact ih (h.respond request).2

end Alike

section Build

variable [Scalar α]

theorem start_alike (objectives : Nat) (point : List α) (originating : Option Nat)
    (settings : Settings α) (r r' : Retention) :
    (∃ e, start objectives point originating { settings with retention := r } = .error e ∧
        start objectives point originating { settings with retention := r' } = .error e) ∨
      ∃ s s', start objectives point originating { settings with retention := r } = .ok s ∧
        start objectives point originating { settings with retention := r' } = .ok s' ∧
        s.Alike s' := by
  rcases start_cases objectives point originating with ⟨e, he⟩ | ⟨-, -, -, f, -, hstart⟩
  · exact .inl ⟨e, he _, he _⟩
  · have hchanges := changes_cornerMesh point objectives originating
    exact .inr ⟨_, _, hstart _, hstart _, ⟨.refl _, fun _ => rfl,
      Mesh.isFiled_empty.changes hchanges, Mesh.isFiled_empty.changes hchanges⟩,
      rfl, rfl, rfl, rfl, rfl, rfl⟩

theorem build_alike (objectives : Nat) (point : List α) (originating : Option Nat)
    (rays : List (List α)) (settings : Settings α) (r r' : Retention) :
    (∃ e, build objectives point originating rays { settings with retention := r } = .error e ∧
        build objectives point originating rays { settings with retention := r' } = .error e) ∨
      ∃ s s', build objectives point originating rays { settings with retention := r } = .ok s ∧
        build objectives point originating rays { settings with retention := r' } = .ok s' ∧
        s.Alike s' := by
  unfold build
  rcases start_alike objectives point originating settings r r' with
    ⟨e, he, he'⟩ | ⟨s, s', hs, hs', halike⟩
  · exact .inl ⟨e, by rw [he]; rfl, by rw [he']; rfl⟩
  · have hends := halike.reportRaysFrom .zero 0 rays
    rw [hs, hs']
    simp only [bind, Except.bind, reportRays]
    cases hrays : reportRaysFrom .zero 0 rays s with
    | ok applied t =>
      obtain ⟨t', hrays', ht⟩ := hends.of_ok hrays
      rw [hrays']
      exact .inr ⟨t, t', rfl, rfl, ht⟩
    | error e t =>
      obtain ⟨t', hrays', -⟩ := hends.of_error hrays
      rw [hrays']
      exact .inl ⟨e, rfl, rfl⟩

/-- The skeletons look the same but for the number of stored vertices. -/
structure LooksLike (s t : Skeleton α) : Prop where
  objectives_eq : s.objectives = t.objectives
  log_eq : s.log = t.log
  nodes_eq : s.mesh.graph.nodes.keys = t.mesh.graph.nodes.keys
  vertex?_eq : ∀ n, s.mesh.vertex? n = t.mesh.vertex? n
  neighbors_eq : ∀ n, s.mesh.graph.neighbors n = t.mesh.graph.neighbors n
  edges_eq : s.mesh.graph.edges = t.mesh.graph.edges
  numberOfEdges_eq : s.mesh.graph.numberOfEdges = t.mesh.graph.numberOfEdges
  untested_eq : s.mesh.graph.untested = t.mesh.graph.untested
  untestedWeights_eq : s.untestedWeights = t.untestedWeights
  lastTaken_eq : s.mesh.graph.lastTaken = t.mesh.graph.lastTaken
  stats_eq : s.stats = t.stats
  failedAudits_eq : s.failedAudits = t.failedAudits
  findViolated_eq : ∀ f, s.findViolated f = t.findViolated f
  edgesAreAdjacent_eq : s.mesh.edgesAreAdjacent = t.mesh.edgesAreAdjacent
  validate_eq : s.validate = t.validate

theorem Alike.looksLike (h : s.Alike t) : s.LooksLike t where
  objectives_eq := h.objectives_eq
  log_eq := h.log_eq
  nodes_eq := h.mesh.graph.nodes.keys_eq
  vertex?_eq := h.mesh.vertex?_eq
  neighbors_eq := h.mesh.graph.neighbors_eq
  edges_eq := h.mesh.graph.edges_eq
  numberOfEdges_eq := h.mesh.graph.numberOfEdges_eq
  untested_eq := h.mesh.graph.untested_eq
  untestedWeights_eq := by
    simp only [untestedWeights, h.mesh.graph.untested_eq, h.mesh.vertex?_eq]
  lastTaken_eq := h.mesh.graph.lastTaken_eq
  stats_eq := h.stats_eq
  failedAudits_eq := h.failedAudits_eq
  findViolated_eq f := by
    simp only [findViolated, h.objectives_eq, h.tolerance_eq, h.mesh.findViolated_eq]
  edgesAreAdjacent_eq := h.mesh.edgesAreAdjacent_eq
  validate_eq := by rw [validate, validate, h.mesh.audit_eq, h.objectives_eq]

/-- What becomes of removed vertices cannot be seen, whatever is asked and whatever fails.
Constructions that differ in this setting alone fail for the same reason, or both give a skeleton;
and after any history of requests these skeletons look the same and give the same answers. Where
vertices are removed with their nodes, the stored vertices are those of the nodes. Where removal is
deferred, all that were ever detached from a node are stored too, without a node, and at no report
does the number of stored vertices decrease. -/
theorem retention_unobservable (objectives : Nat) (point : List α) (originating : Option Nat)
    (rays : List (List α)) (settings : Settings α) :
    match build objectives point originating rays { settings with retention := .deferred },
      build objectives point originating rays { settings with retention := .immediate } with
    | .ok deferred, .ok immediate => ∀ requests : List (Request α),
      let s := deferred.after requests
      let t := immediate.after requests
      s.LooksLike t ∧ (∀ request, (s.respond request).1 = (t.respond request).1) ∧
        (∀ key v, t.mesh.vertices.get? key = some v ↔ t.mesh.Lives key v) ∧
        t.mesh.vertices.size = t.mesh.graph.size ∧
        (∀ key v, s.mesh.vertices.get? key = some v ↔ s.mesh.Lives key v ∨ s.mesh.Loose key v) ∧
        ∃ s₀, start objectives point originating { settings with retention := .deferred } = .ok s₀ ∧
          let meshes := s₀.mesh :: s₀.turns (.rays rays :: requests)
          meshes.getLast? = some s.mesh ∧
          (∀ key v, s.mesh.Loose key v ↔ ∃ a b, [a, b] <:+: meshes ∧ a.Departs b key v) ∧
          (meshes.map (·.vertices.size)).Pairwise (· ≤ ·)
    | .error e, .error e' => e = e'
    | _, _ => False := by
  rcases build_alike objectives point originating rays settings .deferred .immediate with
    ⟨e, he, he'⟩ | ⟨deferred, immediate, hs, ht, halike⟩
  · rw [he, he']
  rw [hs, ht]
  intro requests s t
  have hlike : s.Alike t := halike.after requests
  have hretention : s.settings.retention = .deferred := by rw [(isSound_after hs requests).2.2]
  have hretention' : t.settings.retention = .immediate := by rw [(isSound_after ht requests).2.2]
  have hfiled := hretention ▸ hlike.mesh.filed
  have hfiled' := hretention' ▸ hlike.mesh.filed'
  refine ⟨hlike.looksLike, fun request => (hlike.respond request).1, fun key v => ?_,
    hfiled'.size_eq, fun key v => hfiled.get?_eq_some_iff, ?_⟩
  · rw [hfiled'.get?_eq_some_iff]
    exact or_iff_left hfiled'.not_loose
  · obtain ⟨s₀, applied, hstart, hrays⟩ := build_eq_ok hs
    obtain ⟨hdefers, hloose⟩ := defers_of_start hstart rfl
    have hrun : s₀.after (.rays rays :: requests) = s := by
      simp [after, respond, Request.perform, Functor.map, EStateM.map, hrays, s]
    obtain ⟨-, halong⟩ := hdefers.after (.rays rays :: requests)
    rw [hrun] at halong
    refine ⟨s₀, hstart, halong.getLast?_eq, fun key v => ?_, halong.pairwise_size⟩
    rw [halong.loose_iff]
    exact or_iff_right (hloose key v)

end Build

/-- A ray that removes one vertex and creates another leaves three stored, or two. -/
example :
    let requests := [Request.rayAnywhere [-1, 2]]
    (match build 2 [3, 5] none [] (⟨0, true, .deferred⟩ : Settings Rat),
      build 2 [3, 5] none [] (⟨0, true, .immediate⟩ : Settings Rat) with
    | .ok s, .ok t => ((s.after requests).mesh.vertices.size, (t.after requests).mesh.vertices.size)
    | _, _ => (0, 0)) = (3, 2) := by
  decide +kernel

end Skeleton

end WeightPolyhedron
