import WeightPolyhedron.Proofs.Skeleton.Events
import WeightPolyhedron.Proofs.Skeleton.Report

/-!
What a run does to the untested marks. Every request tells its events, and the mesh remembers them
as long as no cut fails, so that no weight is lost, and none is handed out twice without a reason.
-/

namespace WeightPolyhedron

namespace Cut

variable {α : Type} [Scalar α] {m m' : Mesh α} {p : Nat} {id : FacetId} {f : Facet α}
  {log : FacetLog α} {r : Region} {created : List NodeKey} {origin : NodeKey → NodeKey × NodeKey}
  {n : NodeKey}

/-- A lowered vertex has the new facet. -/
theorem Effect.reopens_iff (h : Effect m m' p log id f r created origin) (hm : m.IsSound p id)
    (hn : m.graph.contains n) (hn' : m'.graph.contains n) : m.Reopens m' n ↔
      (n ∈ r.nodes ∧ m.Lowers log f n) ∧ m.graph.lastTaken ≠ some n := by
  rcases h.kept_or_lowered hn hn' with ⟨hr, -, hkept⟩ | ⟨hr, hl⟩
  · simp [Mesh.Reopens, Mesh.facetsOf?, hkept, hr]
  · obtain ⟨v, w, hv, hw, hv'⟩ := h.lowered_vertex hr hl
    have hmoved : m.facetsOf? n ≠ m'.facetsOf? n := by
      intro heq
      simp only [Mesh.facetsOf?, hv, hv', Option.map_some, Option.some.injEq] at heq
      obtain ⟨-, replaced, -, -, value, -, rfl⟩ := Vertex.descend_eq_ok hw
      exact (hm.isShaped hv).notMem_facets (heq ▸ FacetId.mem_insert.2 (.inl rfl))
    simp [Mesh.Reopens, hn, hmoved, hr, hl]

theorem Effect.turn (h : Effect m m' p log id f r created origin) (hm : m.IsSound p id)
    (hprecedes : m.Precedes m') : m.Turn m' := by
  refine ⟨hprecedes, fun {n} hn' => ?_⟩
  rw [h.mem_untested, Mesh.exists_opens_iff, and_iff_right hn']
  by_cases hn : m.graph.contains n
  · have hold : n ∉ created := fun hc => h.created_new hc hn
    rw [h.reopens_iff hm hn hn']
    rcases h.kept_or_lowered hn hn' with ⟨hr, -, -⟩ | ⟨hr, hl⟩
    · simp [hn, hr, hold]
    · have huntested : n ∈ m.graph.untested → m.graph.lastTaken ≠ some n :=
        fun hu hlast => hm.lastTaken_tested hlast hu
      simp only [hr, hl, hold, hn, not_true, and_false, false_or, true_and, and_self]
      exact ⟨.inl, fun hs => hs.elim (fun hlast => hlast) huntested⟩
  · have hnew := h.created_of_contains hn hn'
    simp [hn, hnew]

/-- A cut by a ray moves no vertex. -/
theorem Effect.keeps (h : Effect m m' p log id f r created origin)
    (hprecedes : m.Precedes m') (hkind : f.kind ≠ .point) : m.Keeps m' := by
  have hfixed (n : NodeKey) : ¬ m.Lowers log f n := by
    intro hl
    obtain ⟨v, -, hpoint, -⟩ := hl
    exact hkind hpoint
  refine ⟨hprecedes, ?_, ?_⟩
  · intro n hn hn'
    rcases h.kept_or_lowered hn hn' with ⟨-, -, hkept⟩ | ⟨-, hl⟩
    · exact hkept
    · exact absurd hl (hfixed n)
  · intro n hn'
    rw [h.mem_untested]
    by_cases hn : m.graph.contains n
    · have hold : n ∉ created := fun hc => h.created_new hc hn
      rcases h.kept_or_lowered hn hn' with ⟨hr, -, -⟩ | ⟨-, hl⟩
      · simp [hn, hr, hold]
      · exact absurd hl (hfixed n)
    · simp [hn, h.created_of_contains hn hn']

end Cut

def Request.IsPoint {α : Type} : Request α → Prop
  | point _ | pointAnywhere _ => True
  | nextWeight | ray _ | rayAnywhere _ | rays _ => False

namespace Skeleton

variable {α : Type} [Scalar α] {s s' : Skeleton α} {f : Facet α} {seed n : NodeKey}
  {tolerance : Tolerance α} {make : List α → Except (Facet.Error α) (Facet α)} {values : List α}
  {request : Request α} {past : List Event} {objectives : Nat} {point : List α}
  {originating : Option Nat} {rays : List (List α)} {settings : Settings α}

/-- What happens to nodes by a request, told from the skeletons before and after it: nodes are new
or were moved, and a weight that is given out is that of the node that is the last one then. -/
def events (s : Skeleton α) (request : Request α) : List Event :=
  let (outcome, s') := s.respond request
  s.mesh.openings s'.mesh ++
    match request, outcome with
    | .nextWeight, .ok _ => s'.mesh.graph.lastTaken.toList.map .taken
    | _, _ => []

def history (s : Skeleton α) : List (Request α) → List Event
  | [] => []
  | request :: requests => s.events request ++ history (s.respond request).2 requests

def CutsPass (s : Skeleton α) : List (Request α) → Prop
  | [] => True
  | request :: requests =>
    (∀ cause, (s.respond request).1 ≠ .error (.cut cause)) ∧ CutsPass (s.respond request).2 requests

/-- The corners are created with the skeleton. The originating one is closed: the only one that is
not on the side of its index. -/
def founding (s : Skeleton α) (originating : Option Nat) : List Event :=
  s.mesh.located.filterMap fun (n, v) =>
    if ∀ i ∈ originating, i ∈ v.facets then some (.created n) else none

theorem IsSound.turn_of_cut (h : s.IsSound) (hf : f.IsReport s.objectives)
    (hcut : s.cut f seed = .ok () s') :
    s.mesh.Turn s'.mesh ∧ (f.kind ≠ .point → s.mesh.Keeps s'.mesh) := by
  obtain ⟨-, -, -, -, r, created, origin, -, heffect⟩ := h.cut_eq_ok hf hcut
  have hprecedes := (precedes_cut s f seed).of_ok hcut
  exact ⟨heffect.turn h.mesh hprecedes, heffect.keeps hprecedes⟩

/-- A report that is taken opens nodes, or changes nothing of the mesh. -/
theorem IsSound.turn_of_reported {Candidate : Facet α → NodeKey → Prop} {b : Bool} (h : s.IsSound)
    (hsuits : s.Suits make tolerance) (hs : s.Reported make values tolerance Candidate b s') :
    s.mesh.Turn s'.mesh ∧ (make = Facet.ofRay → s.mesh.Keeps s'.mesh) := by
  obtain ⟨f, hlength, hf, htries⟩ := hs
  cases b with
  | false =>
    obtain ⟨-, rfl⟩ := htries
    exact ⟨(Mesh.Keeps.refl s.mesh).turn, fun _ => .refl s.mesh⟩
  | true =>
    obtain ⟨seed, -, -, hcut⟩ := htries
    obtain ⟨hturn, hkeeps⟩ := h.turn_of_cut (hsuits.isReport hlength hf).1 hcut
    refine ⟨hturn, fun hray => hkeeps ?_⟩
    rw [Facet.kind_of_ofRay (hray ▸ hf)]
    exact nofun

/-- A report that fails, though not in a cut, changes nothing. -/
theorem IsSound.eq_of_fails {e : Error α} (h : s.IsSound) (hsuits : s.Suits make tolerance)
    (hfails : s.ReportFails make values tolerance e s') (hpass : ∀ cause, e ≠ .cut cause) :
    s' = s := by
  rcases hfails with ⟨rfl, -⟩ | ⟨f, hlength, hf, hfailed⟩
  · rfl
  · obtain ⟨⟨cause, rfl⟩, -⟩ := h.failsFrom (hsuits.isReport hlength hf).1 hfailed
    exact absurd rfl (hpass _)

theorem IsSound.reportRaysFrom_keeps (h : s.IsSound) (rays : List (List α)) (total : CutStats)
    (applied : Nat) : Ends (reportRaysFrom total applied rays) s
      (fun _ s' => s.mesh.Keeps s'.mesh)
      (fun e s' => (∀ cause, e ≠ .cut cause) → s.mesh.Keeps s'.mesh) := by
  induction rays generalizing s total applied with
  | nil => exact .bind (.modify (.pure (.refl s.mesh)))
  | cons ray rays ih =>
    have hsuits : s.Suits Facet.ofRay .strict := .inr ⟨rfl, rfl⟩
    refine .bind (.intro (fun b s' hray => ?_) fun e s' hray hpass => ?_)
    · have hkeeps := (h.turn_of_reported hsuits ((reportRayAnywhere_ends ray).of_ok hray)).2 rfl
      have h' := (h.reaches ((reaches_reportRayAnywhere ray s).of_ok hray)).1
      refine .bind (.get ((ih h' _ _).mono ?_ ?_))
      · exact fun _ _ hs => hkeeps.trans hs
      · exact fun _ _ hs hpass => hkeeps.trans (hs hpass)
    · rw [h.eq_of_fails hsuits ((reportRayAnywhere_ends ray).of_error hray) hpass]
      exact .refl s.mesh

/-- What a request other than for a weight does to a mesh: nodes are opened, and vertices are moved
by points only. -/
structure Acts (request : Request α) (m m' : Mesh α) : Prop where
  turn : m.Turn m'
  keeps : ¬ request.IsPoint → m.Keeps m'

theorem IsSound.report_acts (h : s.IsSound) (hreport : request.report? = some (make, values)) :
    Ends request.perform s (fun _ s' => Acts request s.mesh s'.mesh)
      (fun e s' => (∀ cause, e ≠ .cut cause) → Acts request s.mesh s'.mesh) := by
  have hray (hpoint : ¬ request.IsPoint) : make = Facet.ofRay := by
    cases request with
    | nextWeight | rays => cases hreport
    | point | pointAnywhere => exact absurd trivial hpoint
    | ray | rayAnywhere =>
      cases hreport
      rfl
  obtain ⟨tolerance, hsuits, hends⟩ := perform_ends (s := s) hreport
  refine hends.mono (fun _ s' hs => ?_) fun e s' hfails hpass => ?_
  · obtain ⟨Candidate, b, hs⟩ := hs
    obtain ⟨hturn, hkeeps⟩ := h.turn_of_reported hsuits hs
    exact ⟨hturn, fun hpoint => hkeeps (hray hpoint)⟩
  · rw [h.eq_of_fails hsuits hfails hpass]
    exact ⟨(Mesh.Keeps.refl s.mesh).turn, fun _ => .refl s.mesh⟩

theorem IsSound.perform_acts (h : s.IsSound) (hrequest : request ≠ .nextWeight) :
    Ends request.perform s (fun _ s' => Acts request s.mesh s'.mesh)
      (fun e s' => (∀ cause, e ≠ .cut cause) → Acts request s.mesh s'.mesh) := by
  cases request with
  | nextWeight => exact absurd rfl hrequest
  | point | pointAnywhere | ray | rayAnywhere => exact h.report_acts rfl
  | rays directions =>
    exact .map
      ((h.reportRaysFrom_keeps directions .zero 0).mono (fun _ _ hs => ⟨hs.turn, fun _ => hs⟩)
      fun _ _ hs hpass => ⟨(hs hpass).turn, fun _ => hs hpass⟩)

/-- Any request but one for a weight does so, unless a cut fails. -/
theorem IsSound.acts (h : s.IsSound) (hrequest : request ≠ .nextWeight)
    (hpass : ∀ cause, (s.respond request).1 ≠ .error (.cut cause)) :
    Acts request s.mesh (s.respond request).2.mesh ∧
      s.events request = s.mesh.openings (s.respond request).2.mesh := by
  constructor
  · have hends := h.perform_acts hrequest
    unfold respond at hpass ⊢
    cases hperform : request.perform s with
    | ok response s' => exact hends.of_ok hperform
    | error e s' => exact hends.of_error hperform (by simpa [hperform] using hpass)
  · cases request with
    | nextWeight => exact absurd rfl hrequest
    | point | pointAnywhere | ray | rayAnywhere | rays => exact List.append_nil _

/-- A request for a weight hands out an untested node, if there is one. -/
theorem IsSound.respond_nextWeight (h : s.IsSound) :
    (s.respond .nextWeight = (.error .nothingUntested, s) ∧ s.events .nextWeight = []) ∨
      ∃ n v, s.mesh.graph.takeUntested.1 = some n ∧ s.mesh.vertex? n = some v ∧
        s.respond .nextWeight = (.ok (.weight v.weight), s.taken) ∧
          s.events .nextWeight = [.taken n] := by
  have hopenings : s.mesh.openings s.taken.mesh = [] := s.mesh.openings_takeUntested
  have hnext := h.nextWeight_eq
  split_ifs at hnext with hnil
  · have hrespond : s.respond .nextWeight = (.error .nothingUntested, s) := by
      simp [respond, Request.perform, Functor.map, EStateM.map, hnext]
    rw [taken_eq_self hnil] at hopenings
    exact .inl ⟨hrespond, by simp [events, hrespond, hopenings]⟩
  · obtain ⟨weight, hnext⟩ := hnext
    obtain ⟨-, n, v, hn, hv, rfl⟩ := (nextWeight_ends s).of_ok hnext
    have hrespond : s.respond .nextWeight = (.ok (.weight v.weight), s.taken) := by
      simp [respond, Request.perform, Functor.map, EStateM.map, hnext]
    have hlast : s.taken.mesh.graph.lastTaken = some n :=
      congrArg Graph.lastTaken (Graph.takeUntested_eq_some hn).2
    exact .inr ⟨n, v, hn, hv, hrespond, by simp [events, hrespond, hopenings, hlast]⟩

/-- Only points reopen nodes. -/
theorem IsSound.isPoint_of_reopened (h : s.IsSound)
    (hpass : ∀ cause, (s.respond request).1 ≠ .error (.cut cause))
    (hn : .reopened n ∈ s.events request) : request.IsPoint := by
  by_cases hrequest : request = .nextWeight
  · subst hrequest
    rcases h.respond_nextWeight with ⟨-, hevents⟩ | ⟨k, v, -, -, -, hevents⟩ <;>
      simp [hevents] at hn
  · obtain ⟨hacts, hevents⟩ := h.acts hrequest hpass
    rw [hevents, Mesh.reopened_mem_openings] at hn
    by_contra hpoint
    exact (hacts.keeps hpoint).not_reopens hn.1 hn.2

theorem IsSound.remembers_respond (h : s.IsSound) (hs : s.mesh.Remembers past)
    (hpass : ∀ cause, (s.respond request).1 ≠ .error (.cut cause)) :
    (s.respond request).2.mesh.Remembers (past ++ s.events request) := by
  by_cases hrequest : request = .nextWeight
  · subst hrequest
    rcases h.respond_nextWeight with ⟨hrespond, hevents⟩ | ⟨n, v, hn, -, hrespond, hevents⟩
    · simpa only [hrespond, hevents, List.append_nil] using hs
    · rw [hrespond, hevents]
      exact hs.take h.mesh.simple hn
  · obtain ⟨hacts, hevents⟩ := h.acts hrequest hpass
    rw [hevents]
    exact hs.turn hacts.turn

theorem IsSound.remembers_after {requests : List (Request α)} (h : s.IsSound)
    (hs : s.mesh.Remembers past) (hpass : s.CutsPass requests) :
    (s.after requests).mesh.Remembers (past ++ s.history requests) := by
  induction requests generalizing s past with
  | nil => simpa [after, history] using hs
  | cons request requests ih =>
    obtain ⟨hfirst, hrest⟩ := hpass
    have hnext := ih (h.reaches (reaches_respond s request)).1 (h.remembers_respond hs hfirst) hrest
    simpa only [after, history, List.foldl_cons, List.append_assoc] using hnext

omit [Scalar α] in
theorem mem_founding {e : Event} : e ∈ s.founding originating ↔
    ∃ n v, s.mesh.vertex? n = some v ∧ (∀ i ∈ originating, i ∈ v.facets) ∧ e = .created n := by
  simp only [founding, List.mem_filterMap, Prod.exists, Mesh.mem_located,
    Option.ite_none_right_eq_some, Option.some.injEq, @eq_comm _ e]

/-- Of the corners of a first point, all but the originating one are on the side of its index. -/
theorem Clique.mem_untested_iff {m : Mesh α} {bound : Nat} {nodes : List NodeKey}
    {origin : NodeKey → Vertex α × Bool} {v : Vertex α}
    (h : Clique m point.length bound nodes (cornersOver point originating) origin)
    (hindex : ∀ i ∈ originating, i < point.length) (hv : m.vertex? n = some v) :
    n ∈ m.graph.untested ↔ ∀ i ∈ originating, i ∈ v.facets := by
  obtain ⟨i, value, w, -, hcorner, rfl, huntested⟩ := h.exists_corner hv
  have hfacets (j : Nat) : j ∈ w.facets ↔ j ≠ i ∧ j < point.length + 1 := by
    rw [← Vertex.mem_facetSet, Vertex.corner?_facetSet hcorner, Finset.mem_erase, Finset.mem_range]
  rw [huntested]
  cases originating with
  | none => simp
  | some j =>
    have hj : j < point.length + 1 := Nat.lt_succ_of_lt (hindex j rfl)
    simp only [Option.mem_some_iff, forall_eq', hfacets, and_iff_left hj, ne_eq, Option.some.injEq]

theorem remembers_founding (h : start objectives point originating settings = .ok s) :
    s.mesh.Remembers (s.founding originating) := by
  have hsound := (isSound_of_start h).mesh
  have hcreated {n : NodeKey} : .taken n ∉ s.founding originating := by
    rw [mem_founding]
    exact nofun
  refine ⟨?_, fun {n} hn => ?_, fun hn => absurd hn hcreated⟩
  · have hregular : Event.Regular ([] ++ s.founding originating) := by
      apply Event.Regular.nil.append
      intro e he
      obtain ⟨n, v, -, -, rfl⟩ := mem_founding.1 he
      exact ⟨n, .inl ⟨rfl, List.not_mem_nil⟩⟩
    exact hregular
  · obtain ⟨v, hv⟩ := hsound.contains_iff_vertex?.1 hn
    have hindex := originating_lt_of_start h
    obtain ⟨-, rfl, f, -, rfl⟩ := start_eq_ok h
    obtain ⟨nodes, origin, hclique⟩ := clique_cornerMesh point originating
    rw [Event.isOpen_iff_exists_mem hcreated, hclique.mem_untested_iff hindex hv]
    simp only [mem_founding, Event.Opens]
    constructor
    · intro hopened
      obtain ⟨-, ⟨k, w, hw, hsides, rfl⟩, heq | heq⟩ := hopened <;> cases heq
      obtain rfl := Option.some.inj (hv.symm.trans hw)
      exact hsides
    · exact fun hsides => ⟨_, ⟨n, v, hv, hsides, rfl⟩, .inl rfl⟩

/-- No weight is lost, and none is handed out twice without a reason. Over any history in which no
cut fails, whatever is rounded meanwhile, the untested nodes are those that were opened and not
handed out since: a node is opened when it is created, but for the originating corner, and when a
point moves its vertex while it is not the node handed out last. So a node that is handed out twice
was moved in between, and weights run out when no node is open. -/
theorem untested_iff_open_after_build
    (h : build objectives point originating rays settings = .ok s) (requests : List (Request α))
    (hpass : s.CutsPass requests) :
    ∃ s₀, start objectives point originating settings = .ok s₀ ∧ (s₀.respond (.rays rays)).2 = s ∧
      let t := s.after requests
      let past := s₀.founding originating ++ s₀.history (.rays rays :: requests)
      (∀ n, t.mesh.graph.contains n → (n ∈ t.mesh.graph.untested ↔ Event.IsOpen past n)) ∧
      (∀ front mid back n, past = front ++ .taken n :: (mid ++ .taken n :: back) →
        .reopened n ∈ mid) ∧
      (t.hasNextWeight = false ↔ ∀ n, t.mesh.graph.contains n → ¬ Event.IsOpen past n) ∧
      (∀ weight, (t.respond .nextWeight).1 = .ok (.weight weight) → ∃ n v,
        t.mesh.vertex? n = some v ∧ weight = v.weight ∧ t.events .nextWeight = [.taken n]) ∧
      ∀ request n, (∀ cause, (t.respond request).1 ≠ .error (.cut cause)) →
        .reopened n ∈ t.events request → request.IsPoint := by
  obtain ⟨s₀, applied, hstart, hbatch, hafter⟩ := build_eq_respond h
  have hpassAll : s₀.CutsPass (.rays rays :: requests) :=
    ⟨by simp [hbatch], by simpa [hbatch] using hpass⟩
  have hremembers := (isSound_of_start hstart).remembers_after (remembers_founding hstart) hpassAll
  have ht := (isSound_after h requests).1
  rw [← hafter] at hremembers
  refine ⟨s₀, hstart, by rw [hbatch], fun n hn => (hremembers.isOpen_iff hn).symm, ?_, ?_, ?_, ?_⟩
  · exact fun front mid back n hsplit => hremembers.regular.reopened_mem hsplit
  · simp only [hasNextWeight, Bool.not_eq_false', List.isEmpty_iff]
    constructor
    · intro hnil n hn hopen
      have hmem := (hremembers.isOpen_iff hn).1 hopen
      simp [hnil] at hmem
    · intro hclosed
      refine List.eq_nil_iff_forall_not_mem.2 fun n hn => ?_
      have hcontains := ht.mesh.simple.untested_contains hn
      exact hclosed n hcontains ((hremembers.isOpen_iff hcontains).2 hn)
  · intro weight hweight
    rcases ht.respond_nextWeight with ⟨hrespond, -⟩ | ⟨n, v, -, hv, hrespond, hevents⟩
    · simp [hrespond] at hweight
    · refine ⟨n, v, hv, ?_, hevents⟩
      simpa [hrespond] using hweight.symm
  · exact fun request n hcuts hn => ht.isPoint_of_reopened hcuts hn

/-- Here the point reopens the originating corner, and not the other one, which was handed out
last. -/
theorem untested_iff_open_after_report : ∃ s s₀ : Skeleton Float,
    build 2 [3, 5] (some 0) [] .standard = .ok s ∧ start 2 [3, 5] (some 0) .standard = .ok s₀ ∧
      let t := s.after [.nextWeight, .pointAnywhere [2, 2]]
      let past := s₀.founding (some 0) ++ s₀.history [.rays [], .nextWeight, .pointAnywhere [2, 2]]
      ∀ n, t.mesh.graph.contains n → (n ∈ t.mesh.graph.untested ↔ Event.IsOpen past n) := by
  have hrun : (build 2 [3, 5] (some 0) [] Settings.standard).toOption.any fun s =>
      (s.respond .nextWeight).1.isOk &&
        ((s.respond .nextWeight).2.respond (.pointAnywhere [2, 2])).1.isOk := by
    decide +kernel
  obtain ⟨s, hs, hrun⟩ := exists_ok_of_any hrun
  rw [Bool.and_eq_true] at hrun
  have hpass : s.CutsPass [.nextWeight, .pointAnywhere [2, 2]] := by
    refine ⟨fun cause hcut => ?_, fun cause hcut => ?_, trivial⟩
    · exact absurd hrun.1 (by simp [hcut, Except.isOk, Except.toBool])
    · exact absurd hrun.2 (by simp [hcut, Except.isOk, Except.toBool])
  obtain ⟨s₀, hstart, -, hopen, -⟩ := untested_iff_open_after_build hs _ hpass
  exact ⟨s, s₀, hs, hstart, hopen⟩

end Skeleton

end WeightPolyhedron
