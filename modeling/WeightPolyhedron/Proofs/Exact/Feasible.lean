import WeightPolyhedron.Proofs.Exact.Skeleton

/-!
Feasibility in exact arithmetic. No vertex violates a stored facet; a cut reaches every vertex that
its facet violates, from whichever of them it starts; and a point or a ray that is stored is
rejected when it is reported again.
-/

namespace WeightPolyhedron

namespace Skeleton

variable {s s' : Skeleton ℚ} {f : Facet ℚ} {seed n : NodeKey} {v : Vertex ℚ} {i : FacetId}
  {make : List ℚ → Except (Facet.Error ℚ) (Facet ℚ)} {values : List ℚ} {tolerance : Tolerance ℚ}
  {objectives : Nat} {point : List ℚ} {originating : Option Nat} {rays : List (List ℚ)}
  {settings : Settings ℚ}

theorem IsExact.facetValue_nonneg (h : s.IsExact) (hv : s.mesh.vertex? n = some v)
    (hf : s.log.get? i = some f) : 0 ≤ v.facetValue f := by
  obtain ⟨shift, place, hres⟩ := h.mesh.resolved
  have hside := hres.side_nonneg (Mesh.contains_of_vertex? hv) (FacetLog.lt_size_of_get? hf)
  rwa [FacetLog.side_eq hf, Mesh.pointAt_eq hv, Vertex.form_point
    (h.sound.log.weightCoefficients_length hf) (h.sound.mesh.isShaped hv).weight_length] at hside

theorem IsExact.not_tested (h : s.IsExact) (hf : s.log.get? i = some f) :
    ¬ s.Tested f (s.toleranceFor f) n := by
  intro htested
  obtain ⟨v, hv, hviolates⟩ := h.violatedAt htested
  have hneg : v.facetValue f < 0 := by simpa [Facet.violates] using hviolates
  exact absurd hneg (not_lt.2 (h.facetValue_nonneg hv hf))

/-- The region found from a violated node is all that the facet violates. -/
theorem IsExact.violatedRegion_eq_ok (h : s.IsExact) (hf : f.IsReport s.objectives)
    (hseed : s.mesh.ViolatedAt f seed) :
    ∃ r, s.mesh.violatedRegion f seed = .ok r ∧ ∀ n, n ∈ r.nodes ↔ s.mesh.ViolatedAt f n := by
  obtain ⟨r, hr, haround⟩ :=
    h.sound.mesh.violatedRegion_eq_ok f (Mesh.mem_nodeSet_of_violatedAt hseed)
  exact ⟨r, hr, fun n => h.mesh.mem_region h.sound.mesh hf hseed haround⟩

/-- A report that makes a facet succeeds. -/
theorem IsExact.not_reportFails {e : Error ℚ} (h : s.IsExact) (hsuits : s.Suits make tolerance)
    (hlength : values.length = s.objectives) (hf : make values = .ok f) :
    ¬ s.ReportFails make values tolerance e s' := by
  rintro (⟨-, hrefuses⟩ | ⟨g, -, hg, seed, htested, hcut⟩)
  · exact (h.sound.canTake hlength hf).not_refuses e hrefuses
  · obtain ⟨hreport, rfl⟩ := hsuits.isReport hlength hg
    exact h.cut_ne_error hreport (h.violatedAt htested) hcut

/-- The values are those of a stored facet, and are reported as what they are. -/
structure IsStored (s : Skeleton ℚ) (make : List ℚ → Except (Facet.Error ℚ) (Facet ℚ))
    (values : List ℚ) (tolerance : Tolerance ℚ) : Prop where
  suits : s.Suits make tolerance
  stored : ∃ i f, s.log.get? i = some f ∧ make values = .ok f

theorem IsStored.length_eq (hs : s.IsStored make values tolerance) (h : s.IsExact) :
    values.length = s.objectives := by
  obtain ⟨i, f, hget, hf⟩ := hs.stored
  have hvalues : f.weightCoefficients = values := by
    rcases hs.suits with ⟨rfl, -⟩ | ⟨rfl, -⟩ <;>
      simp [Facet.ofVector_eq_ok hf, Facet.weightCoefficients]
  exact hvalues ▸ h.sound.log.weightCoefficients_length hget

theorem IsStored.not_tested (hs : s.IsStored make values tolerance) (h : s.IsExact)
    (hf : make values = .ok f) : ¬ s.Tested f tolerance n := by
  obtain ⟨i, g, hget, hg⟩ := hs.stored
  obtain rfl : g = f := Except.ok.inj (hg.symm.trans hf)
  rw [(hs.suits.isReport (hs.length_eq h) hf).2]
  exact h.not_tested hget

theorem IsStored.not_reportFails {e : Error ℚ} (hs : s.IsStored make values tolerance)
    (h : s.IsExact) : ¬ s.ReportFails make values tolerance e s' := by
  obtain ⟨i, f, -, hf⟩ := hs.stored
  exact h.not_reportFails hs.suits (hs.length_eq h) hf

theorem IsStored.eq_of_reported {Candidate : Facet ℚ → NodeKey → Prop} {b : Bool}
    (hs : s.IsStored make values tolerance) (h : s.IsExact)
    (hreported : s.Reported make values tolerance Candidate b s') :
    b = false ∧ s' = { s with stats := .rejected } := by
  obtain ⟨f, -, hf, htries⟩ := hreported
  cases b with
  | false => exact ⟨rfl, htries.2⟩
  | true =>
    obtain ⟨seed, -, htested, -⟩ := htries
    exact absurd htested (hs.not_tested h hf)

theorem IsStored.reportPoint (hs : s.IsStored Facet.ofPoint values s.tolerance) (h : s.IsExact) :
    reportPoint values s = .ok false { s with stats := .rejected } := by
  obtain ⟨b, s', heq, hdone⟩ := (reportPoint_ends values).exists_ok fun _ _ => hs.not_reportFails h
  obtain ⟨rfl, rfl⟩ := hs.eq_of_reported h hdone
  exact heq

theorem IsStored.reportPointAnywhere (hs : s.IsStored Facet.ofPoint values s.tolerance)
    (h : s.IsExact) : reportPointAnywhere values s = .ok false { s with stats := .rejected } := by
  obtain ⟨b, s', heq, hdone⟩ :=
    (reportPointAnywhere_ends values).exists_ok fun _ _ => hs.not_reportFails h
  obtain ⟨rfl, rfl⟩ := hs.eq_of_reported h hdone
  exact heq

theorem IsStored.reportRay (hs : s.IsStored Facet.ofRay values .strict) (h : s.IsExact) :
    reportRay values s = .ok () { s with stats := .rejected } := by
  obtain ⟨⟨⟩, s', heq, b, hdone⟩ := (reportRay_ends values).exists_ok fun _ _ =>
    hs.not_reportFails h
  obtain ⟨-, rfl⟩ := hs.eq_of_reported h hdone
  exact heq

theorem IsStored.reportRayAnywhere (hs : s.IsStored Facet.ofRay values .strict) (h : s.IsExact) :
    reportRayAnywhere values s = .ok false { s with stats := .rejected } := by
  obtain ⟨b, s', heq, hdone⟩ :=
    (reportRayAnywhere_ends values).exists_ok fun _ _ => hs.not_reportFails h
  obtain ⟨rfl, rfl⟩ := hs.eq_of_reported h hdone
  exact heq

/-- A batch of stored rays cuts nothing off. -/
theorem reportRaysFrom_stored (h : s.IsExact) (rays : List (List ℚ)) (total : CutStats)
    (applied : Nat)
    (hrays : ∀ ray ∈ rays, ∃ i f, s.log.get? i = some f ∧ Facet.ofRay ray = .ok f) :
    ∃ stats, reportRaysFrom total applied rays s = .ok applied { s with stats } := by
  induction rays generalizing s total with
  | nil => exact ⟨total, rfl⟩
  | cons ray rays ih =>
    have hs : s.IsStored Facet.ofRay ray .strict :=
      ⟨.inr ⟨rfl, rfl⟩, hrays ray (List.mem_cons_self ..)⟩
    obtain ⟨stats, heq⟩ := ih (h.step (.note s .rejected)) (total + .rejected)
      fun ray hray => hrays ray (List.mem_cons_of_mem _ hray)
    refine ⟨stats, ?_⟩
    rw [← heq]
    simp only [reportRaysFrom, bind, EStateM.bind, hs.reportRayAnywhere h]
    rfl

/-- After any history of requests, every vertex satisfies every stored facet, the search from a node
that a facet violates finds all nodes that it violates, and stored points and rays are rejected by
each kind of report. -/
theorem feasible_after_build (h : build objectives point originating rays settings = .ok s)
    (hmargin : 0 ≤ settings.epsilon) (requests : List (Request ℚ)) :
    let t := s.after requests
    (∀ n v, t.mesh.vertex? n = some v → ∀ i f, t.log.get? i = some f → 0 ≤ v.facetValue f) ∧
      (∀ f seed, f.IsReport objectives → t.mesh.ViolatedAt f seed →
        ∃ r, t.mesh.violatedRegion f seed = .ok r ∧ ∀ n, n ∈ r.nodes ↔ t.mesh.ViolatedAt f n) ∧
      (∀ i f values, t.log.get? i = some f → Facet.ofPoint values = .ok f →
        reportPoint values t = .ok false { t with stats := .rejected } ∧
          reportPointAnywhere values t = .ok false { t with stats := .rejected }) ∧
      (∀ i f values, t.log.get? i = some f → Facet.ofRay values = .ok f →
        reportRay values t = .ok () { t with stats := .rejected } ∧
          reportRayAnywhere values t = .ok false { t with stats := .rejected }) ∧
      ∀ batch : List (List ℚ),
        (∀ ray ∈ batch, ∃ i f, t.log.get? i = some f ∧ Facet.ofRay ray = .ok f) →
          ∃ stats, reportRays batch t = .ok 0 { t with stats } := by
  have ht := isExact_after h hmargin requests
  have hobj := (isSound_after h requests).2.1
  refine ⟨fun n v hv i f hf => ht.facetValue_nonneg hv hf, ?_, ?_, ?_, ?_⟩
  · intro f seed hf hseed
    exact ht.violatedRegion_eq_ok (hobj.symm ▸ hf) hseed
  · intro i f values hget hf
    have hs : (s.after requests).IsStored Facet.ofPoint values (s.after requests).tolerance :=
      ⟨.inl ⟨rfl, rfl⟩, i, f, hget, hf⟩
    exact ⟨hs.reportPoint ht, hs.reportPointAnywhere ht⟩
  · intro i f values hget hf
    have hs : (s.after requests).IsStored Facet.ofRay values .strict :=
      ⟨.inr ⟨rfl, rfl⟩, i, f, hget, hf⟩
    exact ⟨hs.reportRay ht, hs.reportRayAnywhere ht⟩
  · exact fun batch hbatch => reportRaysFrom_stored ht batch .zero 0 hbatch

theorem feasible_after_two_reports : ∃ s : Skeleton ℚ,
    build 2 [3, 4] (some 0) [[1, -1]] ⟨0, true, .immediate⟩ = .ok s ∧
      ∀ n v, (s.after [.nextWeight, .point [1, 6]]).mesh.vertex? n = some v →
        ∀ i f, (s.after [.nextWeight, .point [1, 6]]).log.get? i = some f → 0 ≤ v.facetValue f := by
  have hok : (build (α := ℚ) 2 [3, 4] (some 0) [[1, -1]] ⟨0, true, .immediate⟩).isOk := by
    decide +kernel
  cases hs : build (α := ℚ) 2 [3, 4] (some 0) [[1, -1]] ⟨0, true, .immediate⟩ with
  | error e => simp [hs, Except.isOk, Except.toBool] at hok
  | ok s => exact ⟨s, rfl, (feasible_after_build hs le_rfl _).1⟩

end Skeleton

end WeightPolyhedron
