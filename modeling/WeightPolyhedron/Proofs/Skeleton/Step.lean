import WeightPolyhedron.Skeleton.Request
import WeightPolyhedron.Proofs.Outcome
import WeightPolyhedron.Proofs.Region
import WeightPolyhedron.Proofs.Log
import Mathlib.Logic.Relation

/-!
The steps of a skeleton. Whatever is asked of it, in whatever order, comes down to three kinds of
steps: an untested node is taken, statistics are noted, or a facet that violates some vertex is
stored and cuts the mesh, with or without success.
-/

namespace WeightPolyhedron

open Relation (ReflGen ReflTransGen)

variable {α : Type}

theorem Mesh.mem_located {m : Mesh α} {n : NodeKey} {v : Vertex α} :
    (n, v) ∈ m.located ↔ m.vertex? n = some v := by
  simp only [located, List.mem_filterMap, Option.map_eq_some_iff, Prod.mk.injEq]
  constructor
  · intro h
    obtain ⟨k, -, w, hw, hk, hv⟩ := h
    exact hk ▸ hv ▸ hw
  · intro hv
    exact ⟨n, Arena.mem_keys.2 (contains_of_vertex? hv), v, hv, rfl, rfl⟩

variable [Scalar α]

theorem Mesh.findViolated_eq_some {m : Mesh α} {f : Facet α} {tolerance : Tolerance α}
    {n : NodeKey} (h : m.findViolated f tolerance = some n) :
    ∃ v, m.vertex? n = some v ∧ f.violates v tolerance := by
  obtain ⟨⟨k, v⟩, hfind, heq⟩ := Option.map_eq_some_iff.1 h
  have hviolates := List.find?_some hfind
  exact ⟨v, heq ▸ mem_located.1 (List.mem_of_find?_eq_some hfind), hviolates⟩

theorem Mesh.findViolated_eq_none {m : Mesh α} {f : Facet α} {tolerance : Tolerance α} :
    m.findViolated f tolerance = none ↔
      ∀ n v, m.vertex? n = some v → ¬ f.violates v tolerance := by
  simp only [findViolated, Option.map_eq_none_iff, List.find?_eq_none, Prod.forall, mem_located]

namespace Skeleton

variable {s s' t : Skeleton α} {f : Facet α} {n seed : NodeKey} {tolerance : Tolerance α}

/-- The tolerance of the test that lets a facet cut. -/
def toleranceFor (s : Skeleton α) (f : Facet α) : Tolerance α :=
  if f.kind = .point then s.tolerance else .strict

def Tested (s : Skeleton α) (f : Facet α) (tolerance : Tolerance α) (n : NodeKey) : Prop :=
  ∃ v, s.mesh.vertex? n = some v ∧ f.violates v tolerance

theorem tested_iff {v : Vertex α} (hv : s.mesh.vertex? n = some v) :
    s.Tested f tolerance n ↔ f.violates v tolerance := by
  simp [Tested, hv]

/-- Where what is below the margin is below zero, a facet that passes its test violates the
vertex. -/
theorem Tested.violatedAt (h : s.Tested f (s.toleranceFor f) n)
    (hmargin : ∀ x : α, x < -s.settings.epsilon → x < 0) : s.mesh.ViolatedAt f n := by
  obtain ⟨v, hv, hviolates⟩ := h
  refine ⟨v, hv, ?_⟩
  unfold toleranceFor at hviolates
  split_ifs at hviolates
  · have hbelow : v.facetValue f < -s.settings.epsilon := by
      simpa [tolerance, Facet.violates] using hviolates
    simpa [Facet.violates] using hmargin _ hbelow
  · exact hviolates

def taken (s : Skeleton α) : Skeleton α :=
  { s with mesh := { s.mesh with graph := s.mesh.graph.takeUntested.2 } }

inductive Step : Skeleton α → Skeleton α → Prop
  | take (s : Skeleton α) : Step s s.taken
  | note (s : Skeleton α) (stats : CutStats) : Step s { s with stats }
  | cut {s s' : Skeleton α} {f : Facet α} {seed : NodeKey} (report : f.IsReport s.objectives)
    (tested : s.Tested f (s.toleranceFor f) seed) (done : s.cut f seed = .ok () s') : Step s s'
  | failedCut {s s' : Skeleton α} {f : Facet α} {seed : NodeKey} {e : Error α}
    (report : f.IsReport s.objectives) (tested : s.Tested f (s.toleranceFor f) seed)
    (failed : s.cut f seed = .error e s') : Step s s'

/-- What a test of some candidates comes to: one of them is violated and the facet cuts, or none is
and the rejection is noted. -/
def Tries (s : Skeleton α) (f : Facet α) (tolerance : Tolerance α) (Candidate : NodeKey → Prop) :
    Bool → Skeleton α → Prop
  | true, s' => ∃ seed, Candidate seed ∧ s.Tested f tolerance seed ∧ s.cut f seed = .ok () s'
  | false, s' => (∀ n, Candidate n → ¬ s.Tested f tolerance n) ∧
    s' = { s with stats := .rejected }

def FailsFrom (s : Skeleton α) (f : Facet α) (tolerance : Tolerance α) (e : Error α)
    (s' : Skeleton α) : Prop :=
  ∃ seed, s.Tested f tolerance seed ∧ s.cut f seed = .error e s'

def Reported (s : Skeleton α) (make : List α → Except (Facet.Error α) (Facet α)) (values : List α)
    (tolerance : Tolerance α) (Candidate : Facet α → NodeKey → Prop) (b : Bool) (s' : Skeleton α) :
    Prop :=
  ∃ f, values.length = s.objectives ∧ make values = .ok f ∧ s.Tries f tolerance (Candidate f) b s'

def CanTake (s : Skeleton α) (make : List α → Except (Facet.Error α) (Facet α)) (values : List α) :
    Prop :=
  (values.length = s.objectives ∧ ∃ f, make values = .ok f) ∧
    ∀ n, s.mesh.graph.lastTaken = some n → ∃ v, s.mesh.vertex? n = some v

/-- Why a report is refused before it changes anything: its values make no facet, or the node handed
out last has lost its vertex. -/
inductive Refuses (s : Skeleton α) (make : List α → Except (Facet.Error α) (Facet α))
    (values : List α) : Error α → Prop
  | wrongLength (h : values.length ≠ s.objectives) :
    Refuses s make values (.wrongLength s.objectives values.length)
  | facet {cause : Facet.Error α} (hlength : values.length = s.objectives)
    (h : make values = .error cause) : Refuses s make values (.facet cause)
  | lost {n : NodeKey} {e : Error α} (hlast : s.mesh.graph.lastTaken = some n)
    (h : ∀ v, s.mesh.vertex? n ≠ some v) : Refuses s make values e

def ReportFails (s : Skeleton α) (make : List α → Except (Facet.Error α) (Facet α))
    (values : List α) (tolerance : Tolerance α) (e : Error α) (s' : Skeleton α) : Prop :=
  (s' = s ∧ s.Refuses make values e) ∨
    ∃ f, values.length = s.objectives ∧ make values = .ok f ∧ s.FailsFrom f tolerance e s'

omit [Scalar α] in
theorem CanTake.not_refuses {make : List α → Except (Facet.Error α) (Facet α)} {values : List α}
    (h : s.CanTake make values) (e : Error α) : ¬ s.Refuses make values e := by
  obtain ⟨⟨hlength, f, hf⟩, hlast⟩ := h
  intro hrefuses
  cases hrefuses with
  | wrongLength hne => exact hne hlength
  | facet _ herror => exact absurd (hf.symm.trans herror) (by simp)
  | lost hn hnone =>
    obtain ⟨v, hv⟩ := hlast _ hn
    exact hnone v hv

omit [Scalar α] in
theorem facetOf_ends (make : List α → Except (Facet.Error α) (Facet α)) (values : List α) :
    Ends (facetOf make values) s
      (fun f s' => s' = s ∧ values.length = s.objectives ∧ make values = .ok f)
      (fun e s' => s' = s ∧ s.Refuses make values e) := by
  unfold facetOf checkLength
  by_cases hlength : values.length = s.objectives
  · cases hmake : make values with
    | ok f => simp [Ends, hlength]
    | error cause => simpa [Ends, hlength, hmake] using Refuses.facet hlength hmake
  · simpa [Ends, hlength] using Refuses.wrongLength hlength

omit [Scalar α] in
theorem vertexAt_ends (n : NodeKey) : Ends (vertexAt n) s
    (fun v s' => s' = s ∧ s.mesh.vertex? n = some v)
    (fun _ s' => s' = s ∧ ∀ v, s.mesh.vertex? n ≠ some v) := by
  cases hv : s.mesh.vertexAt n with
  | ok v => simpa [Ends, vertexAt, hv] using Mesh.vertexAt_eq_ok_iff.1 hv
  | error e =>
    simp only [Ends, vertexAt, hv, true_and]
    intro v hv'
    rw [Mesh.vertexAt_eq_ok_iff.2 hv'] at hv
    cases hv

omit [Scalar α] in
theorem nextWeight_ends (s : Skeleton α) : Ends nextWeight s
    (fun w s' => s' = s.taken ∧ ∃ n v, s.mesh.graph.takeUntested.1 = some n ∧
      s.mesh.vertex? n = some v ∧ w = v.weight)
    (fun e s' => s' = s.taken ∧ ((s.mesh.graph.untested = [] ∧ e = .nothingUntested) ∨
      ∃ n ∈ s.mesh.graph.untested, ∀ v, s.mesh.vertex? n ≠ some v)) := by
  refine .bind (.modifyGet ?_)
  cases hn : s.mesh.graph.takeUntested.1 with
  | none =>
    exact .throw ⟨rfl, .inl ⟨(Graph.takeUntested_eq_none hn).1, rfl⟩⟩
  | some n =>
    have hmem : n ∈ s.mesh.graph.untested := (Graph.takeUntested_eq_some hn).1
    refine .bind ((vertexAt_ends n).mono (fun v s' hs => .pure ?_) fun _ s' hs => ⟨hs.1, .inr ?_⟩)
    · exact ⟨hs.1, n, v, rfl, (Mesh.vertex?_takeUntested s.mesh n).symm.trans hs.2, rfl⟩
    · refine ⟨n, hmem, fun v hv => hs.2 v ?_⟩
      exact (Mesh.vertex?_takeUntested s.mesh n).trans hv

theorem cut_ends (htested : s.Tested f tolerance seed) : Ends (cut f seed) s
    (fun _ s' => s.Tested f tolerance seed ∧ s.cut f seed = .ok () s')
    (fun e s' => s.FailsFrom f tolerance e s') := by
  cases hcut : s.cut f seed with
  | ok _ s' => simpa only [Ends, hcut, and_true] using htested
  | error e s' => simpa only [Ends, hcut] using ⟨seed, htested, hcut⟩

theorem cutAnywhere_ends (f : Facet α) (tolerance : Tolerance α) :
    Ends (cutAnywhere f tolerance) s (fun b s' => s.Tries f tolerance (fun _ => True) b s')
      (fun e s' => s.FailsFrom f tolerance e s') := by
  refine .bind (.get ?_)
  cases hfind : s.mesh.findViolated f tolerance with
  | none =>
    refine ⟨fun n _ hn => ?_, rfl⟩
    obtain ⟨v, hv, hviolates⟩ := hn
    exact Mesh.findViolated_eq_none.1 hfind n v hv hviolates
  | some seed =>
    have htested : s.Tested f tolerance seed := Mesh.findViolated_eq_some hfind
    exact .bind ((cut_ends htested).mono (fun _ s' hs => ⟨seed, trivial, hs⟩) fun _ s' hs => hs)

section Report

variable {γ : Type} {make : List α → Except (Facet.Error α) (Facet α)} {values : List α}
  {done : γ → Skeleton α → Prop}

/-- A report first makes its facet. -/
theorem facetOf_bind_ends {action : Facet α → Action α γ}
    (h : ∀ f, values.length = s.objectives → make values = .ok f →
      Ends (action f) s done (s.ReportFails make values tolerance)) :
    Ends (facetOf make values >>= action) s done (s.ReportFails make values tolerance) := by
  refine .bind ((facetOf_ends make values).mono ?_ fun _ s' hs => .inl hs)
  intro f s' hall
  obtain ⟨rfl, hlength, hf⟩ := hall
  exact h f hlength hf

/-- It fails where the node handed out last has no vertex. -/
theorem vertexAt_bind_ends {action : Vertex α → Action α γ}
    (hlast : s.mesh.graph.lastTaken = some seed)
    (h : ∀ v, s.mesh.vertex? seed = some v →
      Ends (action v) s done (s.ReportFails make values tolerance)) :
    Ends (vertexAt seed >>= action) s done (s.ReportFails make values tolerance) := by
  refine .bind ((vertexAt_ends seed).mono ?_ fun _ s' hs =>
    .inl ⟨hs.1, .lost hlast hs.2⟩)
  intro v s' hall
  obtain ⟨rfl, hv⟩ := hall
  exact h v hv

end Report

theorem reportPoint_ends (point : List α) : Ends (reportPoint point) s
    (s.Reported Facet.ofPoint point s.tolerance fun _ n =>
      ∀ last, s.mesh.graph.lastTaken = some last → n = last)
    (s.ReportFails Facet.ofPoint point s.tolerance) := by
  apply facetOf_bind_ends
  intro f hlength hf
  refine .bind (.get (.bind (.get ?_)))
  cases hlast : s.mesh.graph.lastTaken with
  | none =>
    apply (cutAnywhere_ends f s.tolerance).mono
    · exact fun b s' hs => ⟨f, hlength, hf, by simpa using hs⟩
    · exact fun _ s' hs => .inr ⟨f, hlength, hf, hs⟩
  | some seed =>
    apply vertexAt_bind_ends hlast
    intro v hv
    have hcandidate (n : NodeKey) : (∀ last, some seed = some last → n = last) ↔ n = seed := by
      simp
    simp only [hcandidate]
    split_ifs with hviolates
    · refine .bind ((cut_ends ⟨v, hv, hviolates⟩).mono ?_ fun _ t hs => .inr ⟨f, hlength, hf, hs⟩)
      exact fun _ t hs => ⟨f, hlength, hf, seed, rfl, hs⟩
    · exact ⟨f, hlength, hf, fun n hn => hn ▸ (tested_iff hv).not.2 hviolates, rfl⟩

theorem reportPointAnywhere_ends (point : List α) : Ends (reportPointAnywhere point) s
    (s.Reported Facet.ofPoint point s.tolerance fun _ _ => True)
    (s.ReportFails Facet.ofPoint point s.tolerance) := by
  apply facetOf_bind_ends
  intro f hlength hf
  apply Ends.bind
  apply Ends.get
  apply (cutAnywhere_ends f s.tolerance).mono
  · exact fun b s' hs => ⟨f, hlength, hf, hs⟩
  · exact fun _ s' hs => .inr ⟨f, hlength, hf, hs⟩

theorem reportRayAnywhere_ends (ray : List α) : Ends (reportRayAnywhere ray) s
    (s.Reported Facet.ofRay ray .strict fun _ _ => True)
    (s.ReportFails Facet.ofRay ray .strict) := by
  apply facetOf_bind_ends
  intro f hlength hf
  apply (cutAnywhere_ends f .strict).mono
  · exact fun b s' hs => ⟨f, hlength, hf, hs⟩
  · exact fun _ s' hs => .inr ⟨f, hlength, hf, hs⟩

/-- A ray cuts from the node handed out last if it violates that one, and else from any that it
violates. -/
theorem reportRay_ends (ray : List α) : Ends (reportRay ray) s
    (fun _ s' => ∃ b, s.Reported Facet.ofRay ray .strict (fun f n => ∀ last,
      s.mesh.graph.lastTaken = some last → s.Tested f .strict last → n = last) b s')
    (s.ReportFails Facet.ofRay ray .strict) := by
  apply facetOf_bind_ends
  intro f hlength hf
  refine .bind (.get ?_)
  -- the scan, where the node handed out last does not do
  have hscan (hfree : ∀ last, s.mesh.graph.lastTaken = some last → ¬ s.Tested f .strict last) :
      Ends (discard (cutAnywhere f .strict)) s
        (fun _ s' => ∃ b, s.Reported Facet.ofRay ray .strict (fun f n => ∀ last,
          s.mesh.graph.lastTaken = some last → s.Tested f .strict last → n = last) b s')
        (s.ReportFails Facet.ofRay ray .strict) := by
    refine .map ((cutAnywhere_ends f .strict).mono ?_ fun _ s' hs => .inr ⟨f, hlength, hf, hs⟩)
    intro b s' hs
    refine ⟨b, f, hlength, hf, ?_⟩
    have hall (n : NodeKey) : (∀ last, s.mesh.graph.lastTaken = some last →
        s.Tested f .strict last → n = last) ↔ True :=
      iff_true_intro fun last hl ht => absurd ht (hfree last hl)
    simpa only [hall] using hs
  cases hlast : s.mesh.graph.lastTaken with
  | none => simpa only [hlast] using hscan (by simp [hlast])
  | some seed =>
    apply vertexAt_bind_ends hlast
    intro v hv
    split_ifs with hviolates
    · refine (cut_ends ⟨v, hv, hviolates⟩).mono ?_ fun _ t hs => .inr ⟨f, hlength, hf, hs⟩
      exact fun _ t hs => ⟨true, f, hlength, hf, seed, fun last hl _ => Option.some.inj hl, hs⟩
    · have hfree : ∀ last, s.mesh.graph.lastTaken = some last → ¬ s.Tested f .strict last := by
        intro last hl
        rw [hlast, Option.some.injEq] at hl
        exact hl ▸ (tested_iff hv).not.2 hviolates
      simpa only [hlast] using hscan hfree

abbrev Reaches {γ : Type} (action : Action α γ) (s : Skeleton α) : Prop :=
  Ends action s (fun _ => ReflTransGen Step s) (fun _ => ReflTransGen Step s)

/-- Each outcome of an action is reached by one step, unless nothing happens. -/
abbrev StepsOnce {γ : Type} (action : Action α γ) (s : Skeleton α) : Prop :=
  Ends action s (fun _ => ReflGen Step s) (fun _ => ReflGen Step s)

theorem StepsOnce.reaches {γ : Type} {action : Action α γ} (h : StepsOnce action s) :
    Reaches action s :=
  h.mono (fun _ _ hs => hs.to_reflTransGen) fun _ _ hs => hs.to_reflTransGen

def Suits (s : Skeleton α) (make : List α → Except (Facet.Error α) (Facet α))
    (tolerance : Tolerance α) : Prop :=
  (make = Facet.ofPoint ∧ tolerance = s.tolerance) ∨ (make = Facet.ofRay ∧ tolerance = .strict)

variable {make : List α → Except (Facet.Error α) (Facet α)} {values : List α}

theorem Suits.isReport (h : s.Suits make tolerance) (hlength : values.length = s.objectives)
    (hf : make values = .ok f) : f.IsReport s.objectives ∧ tolerance = s.toleranceFor f := by
  rcases h with ⟨rfl, rfl⟩ | ⟨rfl, rfl⟩
  · exact ⟨⟨values, hlength, .inl hf⟩, by simp [toleranceFor, Facet.kind_of_ofPoint hf]⟩
  · exact ⟨⟨values, hlength, .inr hf⟩, by simp [toleranceFor, Facet.kind_of_ofRay hf]⟩

theorem Suits.once_of_reported {Candidate : Facet α → NodeKey → Prop} {b : Bool}
    (h : s.Suits make tolerance) (hs : s.Reported make values tolerance Candidate b s') :
    ReflGen Step s s' := by
  obtain ⟨f, hlength, hf, htries⟩ := hs
  obtain ⟨hreport, rfl⟩ := h.isReport hlength hf
  cases b with
  | false =>
    obtain ⟨-, rfl⟩ := htries
    exact .single (.note s _)
  | true =>
    obtain ⟨seed, -, htested, hcut⟩ := htries
    exact .single (.cut hreport htested hcut)

theorem Suits.once_of_fails {e : Error α} (h : s.Suits make tolerance)
    (hs : s.ReportFails make values tolerance e s') : ReflGen Step s s' := by
  rcases hs with ⟨rfl, -⟩ | ⟨f, hlength, hf, seed, htested, hcut⟩
  · exact .refl
  · obtain ⟨hreport, rfl⟩ := h.isReport hlength hf
    exact .single (.failedCut hreport htested hcut)

theorem once_nextWeight (s : Skeleton α) : StepsOnce nextWeight s :=
  have htake := ReflGen.single (Step.take s)
  (nextWeight_ends s).mono (fun _ _ hs => hs.1 ▸ htake) fun _ _ hs => hs.1 ▸ htake

theorem once_reportPoint (point : List α) (s : Skeleton α) : StepsOnce (reportPoint point) s :=
  have hsuits : s.Suits Facet.ofPoint s.tolerance := .inl ⟨rfl, rfl⟩
  (reportPoint_ends point).mono (fun _ _ hs => hsuits.once_of_reported hs)
    fun _ _ hs => hsuits.once_of_fails hs

theorem once_reportPointAnywhere (point : List α) (s : Skeleton α) :
    StepsOnce (reportPointAnywhere point) s :=
  have hsuits : s.Suits Facet.ofPoint s.tolerance := .inl ⟨rfl, rfl⟩
  (reportPointAnywhere_ends point).mono (fun _ _ hs => hsuits.once_of_reported hs)
    fun _ _ hs => hsuits.once_of_fails hs

theorem once_reportRay (ray : List α) (s : Skeleton α) : StepsOnce (reportRay ray) s :=
  have hsuits : s.Suits Facet.ofRay .strict := .inr ⟨rfl, rfl⟩
  (reportRay_ends ray).mono (fun _ _ hs => hs.elim fun _ hs => hsuits.once_of_reported hs)
    fun _ _ hs => hsuits.once_of_fails hs

theorem once_reportRayAnywhere (ray : List α) (s : Skeleton α) :
    StepsOnce (reportRayAnywhere ray) s :=
  have hsuits : s.Suits Facet.ofRay .strict := .inr ⟨rfl, rfl⟩
  (reportRayAnywhere_ends ray).mono (fun _ _ hs => hsuits.once_of_reported hs)
    fun _ _ hs => hsuits.once_of_fails hs

theorem reaches_reportRayAnywhere (ray : List α) (s : Skeleton α) :
    Reaches (reportRayAnywhere ray) s :=
  (once_reportRayAnywhere ray s).reaches

theorem reaches_reportRaysFrom (rays : List (List α)) (total : CutStats) (applied : Nat)
    (s : Skeleton α) : Reaches (reportRaysFrom total applied rays) s := by
  induction rays generalizing total applied s with
  | nil => exact .bind (.modify (.pure (.single (.note s total))))
  | cons ray rays ih =>
    refine .bind ((reaches_reportRayAnywhere ray s).mono (fun b s' hs => ?_) fun _ s' hs => hs)
    refine .bind (.get ((ih _ _ s').mono ?_ ?_))
    · exact fun _ s'' hs' => hs.trans hs'
    · exact fun _ s'' hs' => hs.trans hs'

/-- Every request but a batch is one step. -/
theorem once_perform {request : Request α} (h : ∀ directions, request ≠ .rays directions)
    (s : Skeleton α) : StepsOnce request.perform s := by
  cases request with
  | nextWeight => exact .map (once_nextWeight s)
  | point outcome => exact .map (once_reportPoint outcome s)
  | pointAnywhere outcome => exact .map (once_reportPointAnywhere outcome s)
  | ray direction => exact .map (once_reportRay direction s)
  | rayAnywhere direction => exact .map (once_reportRayAnywhere direction s)
  | rays directions => exact absurd rfl (h directions)

theorem reaches_perform (request : Request α) (s : Skeleton α) : Reaches request.perform s := by
  by_cases h : ∃ directions, request = .rays directions
  · obtain ⟨directions, rfl⟩ := h
    exact .map (reaches_reportRaysFrom directions _ _ s)
  · exact (once_perform (fun directions heq => h ⟨directions, heq⟩) s).reaches

/-- What holds of a skeleton whether a request succeeds or fails holds of the one afterwards. -/
theorem of_perform {request : Request α} {P : Skeleton α → Prop}
    (h : Ends request.perform s (fun _ => P) fun _ => P) : P (s.respond request).2 := by
  unfold respond
  cases hs : request.perform s with
  | ok _ s' => exact h.of_ok hs
  | error _ s' => exact h.of_error hs

theorem respond_rayAnywhere_of_ok {ray : List α} {b : Bool}
    (h : reportRayAnywhere ray s = .ok b s') :
    s.respond (.rayAnywhere ray) = (.ok (.accepted b), s') := by
  simp [respond, Request.perform, Functor.map, EStateM.map, h]

theorem respond_rayAnywhere_of_error {ray : List α} {e : Error α}
    (h : reportRayAnywhere ray s = .error e s') :
    s.respond (.rayAnywhere ray) = (.error e, s') := by
  simp [respond, Request.perform, Functor.map, EStateM.map, h]

theorem reaches_respond (s : Skeleton α) (request : Request α) :
    ReflTransGen Step s (s.respond request).2 :=
  of_perform (reaches_perform request s)

theorem reaches_after (s : Skeleton α) (requests : List (Request α)) :
    ReflTransGen Step s (s.after requests) := by
  induction requests generalizing s with
  | nil => exact .refl
  | cons request requests ih => exact (reaches_respond s request).trans (ih _)

theorem build_eq_ok {objectives : Nat} {point : List α} {originating : Option Nat}
    {rays : List (List α)} {settings : Settings α}
    (h : build objectives point originating rays settings = .ok s) :
    ∃ s₀ applied, start objectives point originating settings = .ok s₀ ∧
      reportRays rays s₀ = .ok applied s := by
  unfold build at h
  cases hstart : start objectives point originating settings with
  | error e => simp [hstart, bind, Except.bind] at h
  | ok s₀ =>
    simp only [hstart, bind, Except.bind] at h
    cases hs : reportRays rays s₀ with
    | ok applied s' =>
      simp only [hs, pure, Except.pure, Except.ok.injEq] at h
      exact ⟨s₀, applied, rfl, h ▸ hs⟩
    | error e s' => simp [hs, throw, throwThe, MonadExceptOf.throw] at h

/-- A built skeleton is that of its first point after a batch of rays. -/
theorem build_eq_respond {objectives : Nat} {point : List α} {originating : Option Nat}
    {rays : List (List α)} {settings : Settings α}
    (h : build objectives point originating rays settings = .ok s) :
    ∃ s₀ applied, start objectives point originating settings = .ok s₀ ∧
      s₀.respond (.rays rays) = (.ok (.applied applied), s) ∧
      ∀ requests, s.after requests = s₀.after (.rays rays :: requests) := by
  obtain ⟨s₀, applied, hstart, hrays⟩ := build_eq_ok h
  have hbatch : s₀.respond (.rays rays) = (.ok (.applied applied), s) := by
    simp [respond, Request.perform, Functor.map, EStateM.map, hrays]
  exact ⟨s₀, applied, hstart, hbatch, fun requests => by simp [after, hbatch]⟩

/-- A built skeleton comes by steps from that of its first point. -/
theorem reaches_build {objectives : Nat} {point : List α} {originating : Option Nat}
    {rays : List (List α)} {settings : Settings α}
    (h : build objectives point originating rays settings = .ok s) :
    ∃ s₀, start objectives point originating settings = .ok s₀ ∧ ReflTransGen Step s₀ s := by
  obtain ⟨s₀, applied, hstart, hrays⟩ := build_eq_ok h
  exact ⟨s₀, hstart, (reaches_reportRaysFrom rays .zero 0 s₀).of_ok hrays⟩

/-- What holds of the skeleton of a first point and is kept by each step holds ever after. -/
theorem after_induction {objectives : Nat} {point : List α} {originating : Option Nat}
    {rays : List (List α)} {settings : Settings α} {P : Skeleton α → Prop}
    (h : build objectives point originating rays settings = .ok s)
    (hstart : ∀ s₀, start objectives point originating settings = .ok s₀ → P s₀)
    (hstep : ∀ s s', P s → Step s s' → P s') (requests : List (Request α)) :
    P (s.after requests) := by
  obtain ⟨s₀, hs₀, hbuild⟩ := reaches_build h
  have hall := hbuild.trans (reaches_after s requests)
  generalize s.after requests = t at hall
  induction hall with
  | refl => exact hstart s₀ hs₀
  | tail _ hlast ih => exact hstep _ _ ih hlast

end Skeleton

end WeightPolyhedron
