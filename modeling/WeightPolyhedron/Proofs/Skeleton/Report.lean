import WeightPolyhedron.Proofs.Skeleton.Sound
import WeightPolyhedron.Proofs.Scalar.Double

/-!
How the report of a single point or ray fails. A report that makes no facet leaves the skeleton as
it was. A cut that fails midway does not: the facet stays in the log, and the mesh stays as the
failure found it. Where the margin is from zero on and all values of the facet can be compared with
zero, no cut fails.
-/

namespace WeightPolyhedron

/-- How a request to report a single vector makes its facet, and the vector. -/
def Request.report? {α : Type} [Scalar α] :
    Request α → Option ((List α → Except (Facet.Error α) (Facet α)) × List α)
  | point values | pointAnywhere values => some (Facet.ofPoint, values)
  | ray values | rayAnywhere values => some (Facet.ofRay, values)
  | nextWeight | rays _ => none

namespace Skeleton

variable {α : Type} [Scalar α] {s s' : Skeleton α} {f : Facet α} {seed n : NodeKey} {e : Error α}
  {make : List α → Except (Facet.Error α) (Facet α)} {values : List α} {tolerance : Tolerance α}
  {request : Request α} {objectives : Nat} {point : List α} {originating : Option Nat}
  {rays : List (List α)} {settings : Settings α}

/-- All reports of a single vector end alike: its facet is tested at some candidates. -/
theorem perform_ends (h : request.report? = some (make, values)) :
    ∃ tolerance, s.Suits make tolerance ∧ Ends request.perform s
      (fun _ s' => ∃ Candidate b, s.Reported make values tolerance Candidate b s')
      (s.ReportFails make values tolerance) := by
  have hpoint : s.Suits Facet.ofPoint s.tolerance := .inl ⟨rfl, rfl⟩
  have hray : s.Suits Facet.ofRay .strict := .inr ⟨rfl, rfl⟩
  cases request with
  | nextWeight | rays => cases h
  | point values =>
    cases h
    exact ⟨_, hpoint,
      .map ((reportPoint_ends values).mono (fun b _ hs => ⟨_, b, hs⟩) fun _ _ => id)⟩
  | pointAnywhere values =>
    cases h
    exact ⟨_, hpoint,
      .map ((reportPointAnywhere_ends values).mono (fun b _ hs => ⟨_, b, hs⟩) fun _ _ => id)⟩
  | ray values =>
    cases h
    exact ⟨_, hray,
      .map ((reportRay_ends values).mono (fun _ _ hs => ⟨_, hs.choose, hs.choose_spec⟩)
        fun _ _ => id)⟩
  | rayAnywhere values =>
    cases h
    exact ⟨_, hray,
      .map ((reportRayAnywhere_ends values).mono (fun b _ hs => ⟨_, b, hs⟩) fun _ _ => id)⟩

/-- Which vectors make the facet of a report. -/
theorem exists_make_iff (h : request.report? = some (make, values)) :
    (∃ f, make values = .ok f) ↔ values ≠ [] ∧ ∀ v ∈ values, Scalar.isFinite v := by
  cases request with
  | nextWeight | rays => cases h
  | point | pointAnywhere | ray | rayAnywhere =>
    cases h
    exact Facet.exists_ofVector_iff

/-- In a sound skeleton the node handed out last has its vertex, so that only a vector that makes no
facet is refused. -/
theorem IsSound.refuses_iff (h : s.IsSound) : s.Refuses make values e ↔
    (values.length ≠ s.objectives ∧ e = .wrongLength s.objectives values.length) ∨
      (values.length = s.objectives ∧ ∃ cause, make values = .error cause ∧ e = .facet cause) := by
  constructor
  · intro hrefuses
    cases hrefuses with
    | wrongLength hne => exact .inl ⟨hne, rfl⟩
    | facet hlength herror => exact .inr ⟨hlength, _, herror, rfl⟩
    | lost hlast hnone =>
      obtain ⟨v, hv, -⟩ := h.mesh.stored (h.mesh.simple.lastTaken_contains hlast)
      exact absurd hv (hnone v)
  · intro hcases
    rcases hcases with ⟨hne, rfl⟩ | ⟨hlength, cause, herror, rfl⟩
    · exact .wrongLength hne
    · exact .facet hlength herror

/-- A failed cut stores its facet and keeps all but the mesh besides. -/
theorem IsSound.failsFrom (h : s.IsSound) (hf : f.IsReport s.objectives)
    (hfails : s.FailsFrom f tolerance e s') :
    (∃ cause, e = .cut (.vertex cause)) ∧ ∃ mesh, s' = { s with log := s.log.snoc f, mesh } := by
  obtain ⟨seed, ⟨v, hv, -⟩, hcut⟩ := hfails
  obtain ⟨hobj, hset, hlog, hfail, -, -, hstats, hcause⟩ := h.cut_eq_error hf hcut
  refine ⟨hcause (Mesh.contains_of_vertex? hv), s'.mesh, ?_⟩
  cases s'
  simp only at hobj hset hlog hfail hstats
  simp only [hobj, hset, hlog, hfail, hstats]

omit [Scalar α] in
theorem snoc_ne (mesh : Mesh α) : ({ s with log := s.log.snoc f, mesh } : Skeleton α) ≠ s :=
  fun heq => FacetLog.snoc_ne (congrArg Skeleton.log heq)

/-- After any history of requests, the report of a single point or ray that fails leaves the
skeleton as it was, just if the vector has the wrong length or makes no facet. The only other
failure is that of a cut at a vertex that cannot be derived, and then the facet stays stored. -/
theorem failed_report_after_build
    (h : build objectives point originating rays settings = .ok s) (requests : List (Request α))
    (hreport : request.report? = some (make, values))
    (hfails : request.perform (s.after requests) = .error e s') :
    (s' = s.after requests ∧
      ((values.length ≠ objectives ∧ e = .wrongLength objectives values.length) ∨
        (values.length = objectives ∧ ∃ cause, make values = .error cause ∧ e = .facet cause))) ∨
      (s' ≠ s.after requests ∧ values.length = objectives ∧ ∃ f cause mesh, make values = .ok f ∧
        e = .cut (.vertex cause) ∧
        s' = { s.after requests with log := (s.after requests).log.snoc f, mesh }) := by
  obtain ⟨ht, hobj, -⟩ := isSound_after h requests
  obtain ⟨tolerance, hsuits, hends⟩ := perform_ends (s := s.after requests) hreport
  rcases hends.of_error hfails with ⟨rfl, hrefuses⟩ | ⟨f, hlength, hf, hfailed⟩
  · left
    rw [ht.refuses_iff, hobj] at hrefuses
    exact ⟨rfl, hrefuses⟩
  · right
    obtain ⟨⟨cause, rfl⟩, mesh, rfl⟩ := ht.failsFrom (hsuits.isReport hlength hf).1 hfailed
    exact ⟨snoc_ne mesh, hobj ▸ hlength, f, cause, mesh, hf, rfl, rfl⟩

/-- With a margin below zero, the cut of the first point fails when it is reported again. -/
theorem fails_cut_with_negative_margin :
    (match build (α := Float) 2 [3, 5] none [] ⟨-1, true, .immediate⟩ with
      | .ok s => match (Request.pointAnywhere [3, 5]).perform s with
        | .error (.cut _) _ => true
        | _ => false
      | .error _ => false) = true := by
  decide +kernel

/-- With a margin below zero, the first point counts as violating its own corners when it is
reported again, and no edge between them can be cut. -/
theorem failed_report_with_negative_margin : ∃ (s t : Skeleton Float) (e : Error Float),
    build 2 [3, 5] none [] ⟨-1, true, .immediate⟩ = .ok s ∧
      (Request.pointAnywhere [3, 5]).perform s = .error e t ∧ t ≠ s := by
  have hrun := fails_cut_with_negative_margin
  cases hs : build (α := Float) 2 [3, 5] none [] ⟨-1, true, .immediate⟩ with
  | error e => simp [hs] at hrun
  | ok s =>
    cases hfails : (Request.pointAnywhere [3, 5]).perform s with
    | ok response t => simp [hs, hfails] at hrun
    | error e t =>
      refine ⟨s, t, e, rfl, hfails, ?_⟩
      rcases failed_report_after_build hs [] rfl hfails with ⟨-,
        ⟨-, rfl⟩ | ⟨-, cause, -, rfl⟩⟩ | ⟨hne, -⟩
      · simp [hs, hfails] at hrun
      · simp [hs, hfails] at hrun
      · exact hne

end Skeleton

end WeightPolyhedron
