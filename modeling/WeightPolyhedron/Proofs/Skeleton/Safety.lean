import WeightPolyhedron.Proofs.Skeleton.Report

/-!
Which failures cannot happen in double precision. With a margin from zero on, a facet whose values
at all vertices are numbers is either cut with or rejected, and weights run out only when all are
tested.
-/

namespace WeightPolyhedron

/-- As many results are read as there are nodes to read at. -/
theorem Mesh.mapM_inspect_ends {α β : Type} {m : Mesh α} {read : NodeKey → Mesh α → Except Error β}
    (nodes : List NodeKey) : Ends (nodes.mapM fun n => inspect (read n)) m
      (fun bs _ => bs.length = nodes.length) (fun _ _ => True) := by
  refine .mapM (fun front bs _ => bs.length = front.length) ?_ rfl
  intro front n back bs s hl hlength
  exact .intro (fun b s' _ => by simp [hlength]) fun _ _ _ => trivial

namespace Skeleton

section Generic

variable {α : Type} [Scalar α] {s s' : Skeleton α} {f : Facet α} {e : Error α}
  {make : List α → Except (Facet.Error α) (Facet α)} {values : List α} {tolerance : Tolerance α}
  {request : Request α}

/-- The values of a reported facet at all vertices can be compared with zero. -/
def Compares (s : Skeleton α) (make : List α → Except (Facet.Error α) (Facet α)) (values : List α) :
    Prop :=
  ∀ f, make values = .ok f → ∀ n v, s.mesh.vertex? n = some v →
    v.facetValue f < 0 ∨ 0 ≤ v.facetValue f

/-- What the test before a cut relies on. -/
structure HasMargin (s : Skeleton α) : Prop where
  lt_zero : ∀ x : α, x < -s.settings.epsilon → x < 0
  neg_one_ne_zero : ((-1 : α) == 0) = false

/-- A report that can be compared is only refused. -/
theorem IsSound.refuses_of_fails (h : s.IsSound) (hmargin : s.HasMargin)
    (hsuits : s.Suits make tolerance) (hvalues : s.Compares make values)
    (hfails : s.ReportFails make values tolerance e s') : s' = s ∧ s.Refuses make values e := by
  rcases hfails with hrefused | ⟨f, hlength, hf, seed, htested, hcut⟩
  · exact hrefused
  · obtain ⟨hreport, rfl⟩ := hsuits.isReport hlength hf
    obtain ⟨-, -, -, -, -, hobstructed, -⟩ := h.cut_eq_error hreport hcut
    exact absurd hobstructed (Cut.not_obstructed h.mesh hreport (htested.violatedAt hmargin.lt_zero)
      hmargin.neg_one_ne_zero (hvalues f hf))

/-- Whether a report that can be compared is taken depends on its vector alone. -/
theorem IsSound.perform_report (h : s.IsSound) (hmargin : s.HasMargin)
    (hreport : request.report? = some (make, values)) (hvalues : s.Compares make values) :
    if values.length = s.objectives ∧ ∀ x ∈ values, Scalar.isFinite x then
      ∃ response s', request.perform s = .ok response s'
    else ∃ e, request.perform s = .error e s ∧
      (e = .wrongLength s.objectives values.length ∨ ∃ cause, e = .facet cause) := by
  obtain ⟨tolerance, hsuits, hends⟩ := perform_ends (s := s) hreport
  have hmake := exists_make_iff hreport
  cases hperform : request.perform s with
  | ok response s' =>
    obtain ⟨Candidate, b, f, hlength, hf, -⟩ := hends.of_ok hperform
    rw [if_pos ⟨hlength, (hmake.1 ⟨f, hf⟩).2⟩]
    exact ⟨response, s', rfl⟩
  | error e s' =>
    obtain ⟨rfl, hrefuses⟩ := h.refuses_of_fails hmargin hsuits hvalues (hends.of_error hperform)
    rcases h.refuses_iff.1 hrefuses with ⟨hlength, rfl⟩ | ⟨hlength, cause, herror, rfl⟩
    · rw [if_neg fun hc => hlength hc.1]
      exact ⟨_, rfl, .inl rfl⟩
    · rw [if_neg]
      · exact ⟨_, rfl, .inr ⟨cause, rfl⟩⟩
      · intro hc
        have hne : values ≠ [] := by
          rintro rfl
          exact absurd h.positive (hlength ▸ Nat.lt_irrefl 0)
        obtain ⟨f, hf⟩ := hmake.2 ⟨hne, hc.2⟩
        rw [herror] at hf
        cases hf

end Generic

section Double

variable {s : Skeleton Float} {make : List Float → Except (Facet.Error Float) (Facet Float)}
  {values : List Float} {objectives : Nat} {point : List Float} {originating : Option Nat}
  {rays : List (List Float)} {settings : Settings Float}

def Measures (s : Skeleton Float) (make : List Float → Except (Facet.Error Float) (Facet Float))
    (values : List Float) : Prop :=
  ∀ f, make values = .ok f → ∀ n v, s.mesh.vertex? n = some v → (v.facetValue f).isNaN = false

/-- The same of each ray of a batch when its turn comes. -/
def MeasuresAll : Skeleton Float → List (List Float) → Prop
  | _, [] => True
  | s, ray :: rays => s.Measures Facet.ofRay ray ∧
    ∀ b s', reportRayAnywhere ray s = .ok b s' → MeasuresAll s' rays

theorem Measures.compares (h : s.Measures make values) : s.Compares make values :=
  fun f hf n v hv => Double.lt_zero_or_zero_le (h f hf n v hv)

theorem hasMargin (h : 0 ≤ s.settings.epsilon) : s.HasMargin :=
  ⟨fun _ => Double.lt_zero_of_lt_neg h, Double.neg_one_ne_zero⟩

theorem IsSound.reportRaysFrom_ends (h : s.IsSound) (hmargin : 0 ≤ s.settings.epsilon)
    (hvalues : s.MeasuresAll rays) (total : CutStats) (applied : Nat) :
    Ends (reportRaysFrom total applied rays) s (fun _ _ => True) fun e _ =>
      (∃ length, e = .wrongLength s.objectives length) ∨ ∃ cause, e = .facet cause := by
  induction rays generalizing s total applied with
  | nil => exact .bind (.modify (.pure trivial))
  | cons ray rays ih =>
    have hends := reportRayAnywhere_ends (s := s) ray
    have hreaches := reaches_reportRayAnywhere ray s
    refine .bind (.intro (fun b s' hray => ?_) fun e s' hray => ?_)
    · obtain ⟨h', hobj, hset⟩ := h.reaches (hreaches.of_ok hray)
      refine .bind (.get ?_)
      simpa only [hobj] using ih h' (hset ▸ hmargin) (hvalues.2 b s' hray) _ _
    · obtain ⟨-, hrefuses⟩ := h.refuses_of_fails (hasMargin hmargin) (.inr ⟨rfl, rfl⟩)
        hvalues.1.compares (hends.of_error hray)
      rcases h.refuses_iff.1 hrefuses with ⟨-, rfl⟩ | ⟨-, cause, -, rfl⟩
      · exact .inl ⟨_, rfl⟩
      · exact .inr ⟨cause, rfl⟩

/-- In double precision and with a margin from zero on, a report after any history of requests
succeeds just if its vector has one finite entry for each objective, provided that the values of its
facet at the vertices are numbers; and otherwise nothing is changed. Weights run out only when all
are tested, the facets of each vertex are in the log, and the pairs that a cut joins are pairs of
its new vertices. -/
theorem safe_after_build (h : build objectives point originating rays settings = .ok s)
    (hmargin : 0 ≤ settings.epsilon) (requests : List (Request Float)) :
    let t := s.after requests
    (∀ (request : Request Float) make values, request.report? = some (make, values) →
      t.Measures make values →
      if values.length = objectives ∧ ∀ x ∈ values, x.isFinite then
        ∃ response t', request.perform t = .ok response t'
      else ∃ e, request.perform t = .error e t ∧
        (e = .wrongLength objectives values.length ∨ ∃ cause, e = .facet cause)) ∧
      (∀ (batch : List (List Float)) e t', t.MeasuresAll batch → reportRays batch t = .error e t' →
        (∃ length, e = .wrongLength objectives length) ∨ ∃ cause, e = .facet cause) ∧
      (if t.mesh.graph.untested = [] then nextWeight t = .error .nothingUntested t
        else ∃ weight t', nextWeight t = .ok weight t') ∧
      (∀ n v, t.mesh.vertex? n = some v →
        v.weight.length = objectives ∧ ∀ i ∈ v.facets, ∃ f, t.log.get? i = some f) ∧
      ∀ (m m' : Mesh Float) (nodes : List NodeKey) vs,
        nodes.mapM (fun n => Mesh.inspect (·.vertexAt n)) m = .ok vs m' →
          ∀ i j, (i, j) ∈ Vertex.adjacentPairs vs → i < nodes.length ∧ j < nodes.length := by
  obtain ⟨ht, hobj, hset⟩ := isSound_after h requests
  intro t
  have hmargin : 0 ≤ t.settings.epsilon := hset.symm ▸ hmargin
  refine ⟨?_, ?_, ?_, ?_, ?_⟩
  · intro request make values hreport hvalues
    rw [← hobj]
    exact ht.perform_report (hasMargin hmargin) hreport hvalues.compares
  · intro batch e t' hvalues hfails
    rw [← hobj]
    exact (ht.reportRaysFrom_ends hmargin hvalues .zero 0).of_error hfails
  · have hnext := ht.nextWeight_eq
    split_ifs at hnext ⊢
    · exact hnext
    · exact ⟨_, _, hnext.choose_spec⟩
  · intro n v hv
    have hshape := hobj ▸ ht.mesh.isShaped hv
    exact ⟨hshape.weight_length, fun i hi => FacetLog.exists_get? (hshape.facets_lt i hi)⟩
  · intro m m' nodes vs hread i j hij
    obtain ⟨hlt, -, b, -, hb, -⟩ := Vertex.mem_adjacentPairs.1 hij
    have hj := (List.getElem?_eq_some_iff.1 hb).1
    rw [(Mesh.mapM_inspect_ends nodes).of_ok hread] at hj
    exact ⟨hlt.trans hj, hj⟩

theorem safe_after_first_weight : ∃ s : Skeleton Float, build 2 [3, 5] none [] .standard = .ok s ∧
    ∃ response t, (Request.point [5, 1]).perform (s.after [.nextWeight]) = .ok response t := by
  have hrun : (build 2 [3, 5] none [] Settings.standard).toOption.any fun s =>
      (s.after [.nextWeight]).mesh.located.all fun e =>
        !(e.2.facetValue ⟨[5, 1] ++ [-1], .point⟩).isNaN := by
    decide +kernel
  obtain ⟨s, hs, hrun⟩ := exists_ok_of_any hrun
  have hmargin : 0 ≤ Settings.standard.epsilon := by decide +kernel
  have hvalues : (s.after [.nextWeight]).Measures Facet.ofPoint [5, 1] := by
    intro f hf n v hv
    rw [Facet.ofVector_eq_ok hf]
    simpa using List.all_eq_true.1 hrun (n, v) (Mesh.mem_located.2 hv)
  have htaken := (safe_after_build hs hmargin [.nextWeight]).1 (.point [5, 1]) _ _ rfl hvalues
  rw [if_pos ⟨rfl, by decide +kernel⟩] at htaken
  exact ⟨s, hs, htaken⟩

end Double

end Skeleton

end WeightPolyhedron
