import WeightPolyhedron.Proofs.Skeleton.Report

/-!
A point or a ray that was accepted, reported once more. The cut puts vertices on its facet, and
where rounding leaves one of them below it, or a violated vertex was out of reach of the cut, the
facet is stored a second time; nothing else makes a difference between the two reports.
-/

namespace WeightPolyhedron

/-- How a request that tries all vertices makes its facet, and the vector. -/
def Request.scan? {α : Type} [Scalar α] :
    Request α → Option ((List α → Except (Facet.Error α) (Facet α)) × List α)
  | pointAnywhere values => some (Facet.ofPoint, values)
  | rayAnywhere values => some (Facet.ofRay, values)
  | nextWeight | point _ | ray _ | rays _ => none

namespace Cut

variable {α : Type} [Scalar α] {m m' : Mesh α} {p : Nat} {id : FacetId} {f : Facet α}
  {log : FacetLog α} {r : Region} {created : List NodeKey} {origin : NodeKey → NodeKey × NodeKey}
  {n : NodeKey} {v : Vertex α}

/-- After a cut a vertex has the new facet, or the cut did not reach it. -/
theorem Effect.mem_facets_or_kept (h : Effect m m' p log id f r created origin)
    (hv : m'.vertex? n = some v) : id ∈ v.facets ∨ (n ∉ r.nodes ∧ m.vertex? n = some v) := by
  by_cases hc : n ∈ created
  · obtain ⟨a, b, w, -, -, hw, hnew⟩ := h.created_vertex hc
    obtain rfl := Option.some.inj (hnew.symm.trans hv)
    exact .inl ((Vertex.mem_facets_onEdge hw).2 (.inl rfl))
  by_cases hr : n ∈ r.nodes
  · by_cases hl : m.Lowers log f n
    · obtain ⟨u, w, -, hw, hnew⟩ := h.lowered_vertex hr hl
      obtain rfl := Option.some.inj (hnew.symm.trans hv)
      obtain ⟨-, replaced, -, -, value, -, rfl⟩ := Vertex.descend_eq_ok hw
      exact .inl (FacetId.mem_insert.2 (.inl rfl))
    · rw [h.removed hr hl] at hv
      cases hv
  · exact .inr ⟨hr, h.kept hr hc ▸ hv⟩

end Cut

namespace Skeleton

variable {α : Type} [Scalar α] {s t : Skeleton α} {f : Facet α} {seed n : NodeKey}
  {make : List α → Except (Facet.Error α) (Facet α)} {values : List α} {tolerance : Tolerance α}
  {request : Request α} {objectives : Nat} {point : List α} {originating : Option Nat}
  {rays : List (List α)} {settings : Settings α}

theorem scan_ends (h : request.scan? = some (make, values)) :
    ∃ tolerance, s.Suits make tolerance ∧ Ends request.perform s
      (fun response s' => ∃ b, response = .accepted b ∧
        s.Reported make values tolerance (fun _ _ => True) b s')
      (s.ReportFails make values tolerance) := by
  cases request with
  | nextWeight | point | ray | rays => cases h
  | pointAnywhere values =>
    cases h
    exact ⟨_, .inl ⟨rfl, rfl⟩, .map ((reportPointAnywhere_ends values).mono
      (fun b _ hs => ⟨b, rfl, hs⟩) fun _ _ => id)⟩
  | rayAnywhere values =>
    cases h
    exact ⟨_, .inr ⟨rfl, rfl⟩, .map ((reportRayAnywhere_ends values).mono
      (fun b _ hs => ⟨b, rfl, hs⟩) fun _ _ => id)⟩

/-- How the report of a vector ends that makes a facet: nothing changes if the facet violates no
vertex, and otherwise it is stored. -/
theorem IsSound.respond_scan (h : s.IsSound) (hscan : request.scan? = some (make, values))
    (hlength : values.length = s.objectives) (hf : make values = .ok f) :
    (s.respond request = (.ok (.accepted false), { s with stats := .rejected }) ∧
      ∀ n, ¬ s.Tested f (s.toleranceFor f) n) ∨
    ∃ n, s.Tested f (s.toleranceFor f) n ∧ (s.respond request).2.log = s.log.snoc f ∧
      ((s.respond request).1 = .ok (.accepted true) ∨
        ∃ cause, (s.respond request).1 = .error (.cut (.vertex cause))) := by
  obtain ⟨tolerance, hsuits, hends⟩ := scan_ends (s := s) hscan
  obtain ⟨hreport, rfl⟩ := hsuits.isReport hlength hf
  unfold respond
  cases hperform : request.perform s with
  | ok response t =>
    obtain ⟨b, rfl, g, -, hg, htries⟩ := hends.of_ok hperform
    obtain rfl : g = f := Except.ok.inj (hg.symm.trans hf)
    cases b with
    | false =>
      obtain ⟨hnone, rfl⟩ := htries
      exact .inl ⟨rfl, fun n => hnone n trivial⟩
    | true =>
      obtain ⟨seed, -, htested, hcut⟩ := htries
      exact .inr ⟨seed, htested, (h.cut_eq_ok hreport hcut).2.2.1, .inl rfl⟩
  | error e t =>
    rcases hends.of_error hperform with ⟨-, hrefuses⟩ | ⟨g, -, hg, hfails⟩
    · exact absurd hrefuses ((h.canTake hlength hf).not_refuses e)
    · obtain rfl : g = f := Except.ok.inj (hg.symm.trans hf)
      obtain ⟨hcause, mesh, rfl⟩ := h.failsFrom hreport hfails
      obtain ⟨seed, htested, -⟩ := hfails
      obtain ⟨cause, rfl⟩ := hcause
      exact .inr ⟨seed, htested, rfl, .inr ⟨cause, rfl⟩⟩

/-- After any history of requests, a point or a ray that was tried at all vertices and accepted is
rejected when it is reported again, and nothing else changes, if its facet violates no vertex any
more. Otherwise the facet is stored a second time. A vertex that it still violates was put on the
facet by the cut, so that only rounding can have left it below, or it was violated before and out of
reach of the cut. -/
theorem repeated_report_after_build
    (h : build objectives point originating rays settings = .ok s) (requests : List (Request α))
    (hscan : request.scan? = some (make, values))
    (hfirst : (s.after requests).respond request = (.ok (.accepted true), t)) :
    ∃ f seed, make values = .ok f ∧ (s.after requests).cut f seed = .ok () t ∧
      t.log = (s.after requests).log.snoc f ∧
      ((t.respond request = (.ok (.accepted false), { t with stats := .rejected }) ∧
          ∀ n, ¬ t.Tested f (t.toleranceFor f) n) ∨
        ∃ n v, t.mesh.vertex? n = some v ∧ f.violates v (t.toleranceFor f) ∧
          ((s.after requests).log.size ∈ v.facets ∨
            ((s.after requests).mesh.vertex? n = some v ∧
              ¬ (s.after requests).mesh.Spreads f seed n)) ∧
          (t.respond request).2.log = t.log.snoc f ∧
          ((t.respond request).1 = .ok (.accepted true) ∨
            ∃ cause, (t.respond request).1 = .error (.cut (.vertex cause)))) := by
  obtain ⟨hu, -⟩ := isSound_after h requests
  obtain ⟨tolerance, hsuits, hends⟩ := scan_ends (s := s.after requests) hscan
  obtain ⟨f, hlength, hf, seed, -, htested, hcut⟩ :
      (s.after requests).Reported make values tolerance (fun _ _ => True) true t := by
    unfold respond at hfirst
    cases hperform : request.perform (s.after requests) with
    | error e t' => simp [hperform] at hfirst
    | ok response t' =>
      obtain ⟨b, rfl, hreported⟩ := hends.of_ok hperform
      simp only [hperform, Prod.mk.injEq, Except.ok.injEq, Response.accepted.injEq] at hfirst
      obtain ⟨rfl, rfl⟩ := hfirst
      exact hreported
  obtain ⟨hreport, rfl⟩ := hsuits.isReport hlength hf
  obtain ⟨hobj, -, hlog, -, r, created, origin, hregion, heffect⟩ := hu.cut_eq_ok hreport hcut
  have ht := (hu.step (.cut hreport htested hcut)).1
  refine ⟨f, seed, hf, hcut, hlog, ?_⟩
  rcases ht.respond_scan hscan (hobj ▸ hlength) hf with hrejected | ⟨n, ⟨v, hv, hviolates⟩, hstored⟩
  · exact .inl hrejected
  · refine .inr ⟨n, v, hv, hviolates, ?_, hstored⟩
    rw [← Mesh.mem_violatedRegion_iff hregion]
    exact (heffect.mem_facets_or_kept hv).imp_right And.symm

/-- Over the point `(1, 4)`, the ray `(5, -7)` is accepted twice. -/
theorem accepts_ray_twice :
    (match build 2 [1, 4] none [] Settings.standard with
      | .ok s => match s.respond (.rayAnywhere [5, -7]) with
        | (.ok (.accepted true), t) => match t.respond (.rayAnywhere [5, -7]) with
          | (.ok (.accepted true), _) => true
          | _ => false
        | _ => false
      | .error _ => false) = true := by
  decide +kernel

/-- Over the point `(1, 4)`, rounding leaves the vertex that the ray `(5, -7)` creates below the
facet of that ray, which is accepted and stored once more. -/
theorem repeated_report_stored_twice : ∃ (s t : Skeleton Float) (f : Facet Float),
    build 2 [1, 4] none [] .standard = .ok s ∧
      s.respond (.rayAnywhere [5, -7]) = (.ok (.accepted true), t) ∧
      (t.respond (.rayAnywhere [5, -7])).2.log = (s.log.snoc f).snoc f := by
  have hrun := accepts_ray_twice
  cases hs : build 2 [1, 4] none [] Settings.standard with
  | error e => simp [hs] at hrun
  | ok s =>
    simp only [hs] at hrun
    split at hrun
    · next t hfirst =>
      split at hrun
      · next t' hsecond =>
        obtain ⟨f, seed, -, -, hlog, hcases⟩ := repeated_report_after_build hs [] rfl hfirst
        rcases hcases with ⟨hrejected, -⟩ | ⟨n, v, -, -, -, hstored, -⟩
        · simp [hsecond] at hrejected
        · exact ⟨s, t, f, rfl, hfirst, hlog ▸ hstored⟩
      · cases hrun
    · cases hrun

end Skeleton

end WeightPolyhedron
