import WeightPolyhedron.Proofs.Cut.Seed
import WeightPolyhedron.Proofs.Skeleton.Report

/-!
The vertex at which a report starts its cut does not matter. Reports that try the node handed out
last first agree with those that try all nodes on whether the facet is stored, and cuts from seeds
that are connected agree on all but the names of the new nodes.
-/

namespace WeightPolyhedron

namespace Skeleton

variable {α : Type} [Scalar α] {s : Skeleton α} {f : Facet α} {n : NodeKey}
  {make : List α → Except (Facet.Error α) (Facet α)} {values ray : List α} {tolerance : Tolerance α}
  {request : Request α} {Candidate : Facet α → NodeKey → Prop} {objectives : Nat} {point : List α}
  {originating : Option Nat} {rays : List (List α)} {settings : Settings α}

/-- A report stores its facet, whether the cut succeeds or not, if the facet violates some vertex
and the candidates are chosen well. -/
theorem IsSound.stores_iff (h : s.IsSound) (hsuits : s.Suits make tolerance)
    (hends :
      Ends request.perform s (fun _ s' => ∃ b, s.Reported make values tolerance Candidate b s')
      (s.ReportFails make values tolerance))
    (hcandidate : ∀ f n, s.Tested f tolerance n → ∃ k, Candidate f k ∧ s.Tested f tolerance k) :
    (∃ f, (s.respond request).2.log = s.log.snoc f) ↔
      values.length = s.objectives ∧ ∃ f n, make values = .ok f ∧ s.Tested f tolerance n := by
  unfold respond
  cases hperform : request.perform s with
  | ok response t =>
    obtain ⟨b, f, hlength, hf, htries⟩ := hends.of_ok hperform
    cases b with
    | true =>
      obtain ⟨seed, -, htested, hcut⟩ := htries
      have hlog := (h.cut_eq_ok (hsuits.isReport hlength hf).1 hcut).2.2.1
      exact iff_of_true ⟨f, hlog⟩ ⟨hlength, f, seed, hf, htested⟩
    | false =>
      obtain ⟨hnone, rfl⟩ := htries
      refine iff_of_false (fun ⟨g, hlog⟩ => FacetLog.snoc_ne hlog.symm)
        fun ⟨_, g, n, hg, htested⟩ => ?_
      obtain rfl : g = f := Except.ok.inj (hg.symm.trans hf)
      obtain ⟨k, hk, htested⟩ := hcandidate g n htested
      exact hnone k hk htested
  | error e t =>
    rcases hends.of_error hperform with ⟨rfl, hrefuses⟩ | ⟨f, hlength, hf, hfails⟩
    · refine iff_of_false (fun ⟨g, hlog⟩ => FacetLog.snoc_ne hlog.symm)
        fun ⟨hlength, g, n, hg, _⟩ => ?_
      rcases h.refuses_iff.1 hrefuses with ⟨hne, -⟩ | ⟨-, cause, herror, -⟩
      · exact hne hlength
      · rw [hg] at herror
        cases herror
    · obtain ⟨-, mesh, rfl⟩ := h.failsFrom (hsuits.isReport hlength hf).1 hfails
      obtain ⟨seed, htested, -⟩ := hfails
      exact iff_of_true ⟨f, rfl⟩ ⟨hlength, f, seed, hf, htested⟩

/-- A ray that is tried first at the node handed out last is stored just if it is stored when it is
tried at all nodes at once. -/
theorem IsSound.stores_ray_iff (h : s.IsSound) (ray : List α) :
    (∃ f, (s.respond (.ray ray)).2.log = s.log.snoc f) ↔
      ∃ f, (s.respond (.rayAnywhere ray)).2.log = s.log.snoc f := by
  have hsuits : s.Suits Facet.ofRay .strict := .inr ⟨rfl, rfl⟩
  rw [h.stores_iff hsuits (.map (reportRay_ends ray)) ?_,
    h.stores_iff hsuits
      (.map ((reportRayAnywhere_ends ray).mono (fun b _ hs => ⟨b, hs⟩) fun _ _ => id)) ?_]
  · exact fun f n htested => ⟨n, trivial, htested⟩
  · intro f n htested
    by_cases hfirst : ∃ last, s.mesh.graph.lastTaken = some last ∧ s.Tested f .strict last
    · obtain ⟨last, hlast, hlastTested⟩ := hfirst
      refine ⟨last, fun last' hlast' _ => ?_, hlastTested⟩
      rw [hlast, Option.some.injEq] at hlast'
      exact hlast'
    · exact ⟨n, fun last hlast hlastTested => absurd ⟨last, hlast, hlastTested⟩ hfirst, htested⟩

/-- A point accepted at the node handed out last would be found by a scan too. -/
theorem exists_findViolated (haccepted : (s.respond (.point values)).1 = .ok (.accepted true)) :
    ∃ f seed, Facet.ofPoint values = .ok f ∧ s.mesh.findViolated f s.tolerance = some seed := by
  cases hreport : reportPoint values s with
  | error e t => simp [respond, Request.perform, Functor.map, EStateM.map, hreport] at haccepted
  | ok b t =>
    obtain rfl : b = true := by
      simpa [respond, Request.perform, Functor.map, EStateM.map, hreport] using haccepted
    obtain ⟨f, -, hf, n, -, ⟨v, hv, hviolates⟩, -⟩ := (reportPoint_ends values).of_ok hreport
    cases hfind : s.mesh.findViolated f s.tolerance with
    | some seed => exact ⟨f, seed, hf, hfind⟩
    | none => exact absurd hviolates (Mesh.findViolated_eq_none.1 hfind n v hv)

/-- After any history of requests, whatever failed or was rounded meanwhile, a facet that was just
stored cuts alike from any two violated nodes that are connected through violated ones. A ray is
stored just if it is stored when it is tried at all nodes, and a point that is accepted at the node
handed out last would be found there too. -/
theorem seed_irrelevant_after_build
    (h : build objectives point originating rays settings = .ok s) (requests : List (Request α)) :
    let t := s.after requests
    (∀ f id log a b, t.log.push f = .ok (id, log) → t.mesh.ViolatedAt f a → t.mesh.Spreads f a b →
      ∀ retention,
        (∃ stats m₁ m₂ rename, Mesh.cut log id f a retention t.mesh = .ok stats m₁ ∧
          Mesh.cut log id f b retention t.mesh = .ok stats m₂ ∧ t.mesh.Renames m₁ m₂ rename) ∨
        ∃ e₁ e₂ m₁ m₂, Mesh.cut log id f a retention t.mesh = .error e₁ m₁ ∧
          Mesh.cut log id f b retention t.mesh = .error e₂ m₂) ∧
      (∀ ray, (∃ f, (t.respond (.ray ray)).2.log = t.log.snoc f) ↔
        ∃ f, (t.respond (.rayAnywhere ray)).2.log = t.log.snoc f) ∧
      ∀ values, (t.respond (.point values)).1 = .ok (.accepted true) →
        ∃ f seed, Facet.ofPoint values = .ok f ∧
          t.mesh.findViolated f t.tolerance = some seed := by
  obtain ⟨ht, -⟩ := isSound_after h requests
  refine ⟨fun f id log a b hpush ha hab retention => ?_, ht.stores_ray_iff,
    fun values => exists_findViolated⟩
  exact Cut.cut_eq_of_spreads (FacetLog.eq_size_of_push hpush ▸ ht.mesh) ha hab log retention

/-- Over the points `(4, 1)` and `(1, 4)`, the point `(2, 0)` violates two vertices that are joined.
The cuts from either one agree. -/
theorem seed_irrelevant_after_two_points : ∃ (s : Skeleton Rat) (f : Facet Rat) (stats : CutStats)
    (m₁ m₂ : Mesh Rat) (rename : NodeKey → NodeKey),
    build 2 [4, 1] none [] ⟨0, true, .deferred⟩ = .ok s ∧
      let t := s.after [.pointAnywhere [1, 4]]
      Mesh.cut (t.log.snoc f) t.log.size f ⟨1, 0⟩ .deferred t.mesh = .ok stats m₁ ∧
        Mesh.cut (t.log.snoc f) t.log.size f ⟨2, 0⟩ .deferred t.mesh = .ok stats m₂ ∧
        t.mesh.Renames m₁ m₂ rename := by
  let f : Facet Rat := ⟨[2, 0, -1], .point⟩
  have hrun : (match build (α := Rat) 2 [4, 1] none [] ⟨0, true, .deferred⟩ with
      | .ok s =>
        let t := s.after [.pointAnywhere [1, 4]]
        decide (f.objectives = t.log.objectives ∧ t.mesh.ViolatedAt f ⟨1, 0⟩ ∧
          t.mesh.ViolatedAt f ⟨2, 0⟩ ∧ ⟨2, 0⟩ ∈ t.mesh.graph.neighbors ⟨1, 0⟩) &&
        match Mesh.cut (t.log.snoc f) t.log.size f ⟨1, 0⟩ .deferred t.mesh with
        | .ok _ _ => true
        | .error _ _ => false
      | .error _ => false) = true := by
    decide +kernel
  cases hs : build (α := Rat) 2 [4, 1] none [] ⟨0, true, .deferred⟩ with
  | error e => simp [hs] at hrun
  | ok s =>
    simp only [hs, Bool.and_eq_true, decide_eq_true_eq] at hrun
    obtain ⟨⟨hobjectives, hfirst, hsecond, hedge⟩, hok⟩ := hrun
    rcases (seed_irrelevant_after_build hs [.pointAnywhere [1, 4]]).1 f _ _ ⟨1, 0⟩ ⟨2, 0⟩
        (FacetLog.push_eq _ hobjectives) hfirst (.single ⟨hedge, hsecond⟩) .deferred with
      ⟨stats, m₁, m₂, rename, h₁, h₂, hrenames⟩ | ⟨_, _, _, _, h₁, -⟩
    · exact ⟨s, f, stats, m₁, m₂, rename, rfl, h₁, h₂, hrenames⟩
    · simp [h₁] at hok

end Skeleton

end WeightPolyhedron
