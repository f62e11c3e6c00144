import WeightPolyhedron.Scalar.Double
import WeightPolyhedron.Proofs.Search.Calls
import WeightPolyhedron.Proofs.Skeleton.Sound

/-!
The record of a search. Whatever an oracle answers, and however its answers are rounded, the points
and rays on record are those that the calls brought and that the skeleton holds, and the weights
asked for are those of untested nodes.
-/

namespace WeightPolyhedron

variable {α : Type}

namespace FacetLog

variable {log : FacetLog α} {f : Facet α} {kind : Facet.Kind}

def vectors (log : FacetLog α) (kind : Facet.Kind) : List (List α) :=
  (log.facets.toList.filter (·.kind = kind)).map (·.weightCoefficients)

theorem vectors_snoc (log : FacetLog α) (f : Facet α) (kind : Facet.Kind) :
    (log.snoc f).vectors kind =
      log.vectors kind ++ if f.kind = kind then [f.weightCoefficients] else [] := by
  by_cases hkind : f.kind = kind <;> simp [vectors, snoc, hkind]

theorem vectors_ofSimplex [Scalar α] (p : Nat) (hkind : kind ≠ .boundary) :
    (ofSimplex p : FacetLog α).vectors kind = [] := by
  rw [vectors, toList_ofSimplex, List.map_eq_nil_iff, List.filter_eq_nil_iff]
  intro f hf
  obtain ⟨i, -, rfl⟩ := List.mem_map.1 hf
  simpa using hkind.symm

end FacetLog

variable [Scalar α]

namespace Skeleton

variable {s s' : Skeleton α} {f : Facet α} {points rays : List (List α)} {values : List α}
  {tolerance : Tolerance α} {Candidate : Facet α → NodeKey → Prop} {b : Bool}

/-- The points are those of the facets, and the facets of rays are of rays in the list, each in
their order. -/
structure Records (s : Skeleton α) (points rays : List (List α)) : Prop where
  sound : s.IsSound
  points_eq : s.log.vectors .point = points
  rays_sublist : (s.log.vectors .ray).Sublist rays

/-- A report stores its facet if it cuts something off, and only then. -/
theorem IsSound.log_of_reported {make : List α → Except (Facet.Error α) (Facet α)} (h : s.IsSound)
    (hsuits : s.Suits make tolerance) (hs : s.Reported make values tolerance Candidate b s') :
    s'.IsSound ∧ ∃ f, make values = .ok f ∧ s'.log = if b then s.log.snoc f else s.log := by
  have hsound := (h.reaches (hsuits.once_of_reported hs).to_reflTransGen).1
  obtain ⟨f, hlength, hf, htries⟩ := hs
  refine ⟨hsound, f, hf, ?_⟩
  cases b with
  | true =>
    obtain ⟨seed, -, -, hcut⟩ := htries
    exact (h.cut_eq_ok (hsuits.isReport hlength hf).1 hcut).2.2.1
  | false =>
    obtain ⟨-, rfl⟩ := htries
    rfl

namespace Records

theorem taken (h : s.Records points rays) : s.taken.Records points rays :=
  ⟨(h.sound.step (.take s)).1, h.points_eq, h.rays_sublist⟩

theorem of_reported_point (h : s.Records points rays)
    (hs : s.Reported Facet.ofPoint values s.tolerance Candidate b s') :
    s'.Records (if b then points ++ [values] else points) rays := by
  obtain ⟨hsound, f, hf, hlog⟩ := h.sound.log_of_reported (.inl ⟨rfl, rfl⟩) hs
  obtain rfl := Facet.ofVector_eq_ok hf
  cases b with
  | false => exact ⟨hsound, hlog ▸ h.points_eq, hlog ▸ h.rays_sublist⟩
  | true =>
    refine ⟨hsound, ?_, ?_⟩
    · simp [hlog, FacetLog.vectors_snoc, h.points_eq, Facet.weightCoefficients]
    · simpa [hlog, FacetLog.vectors_snoc] using h.rays_sublist

theorem of_reported_ray (h : s.Records points rays)
    (hs : s.Reported Facet.ofRay values .strict Candidate b s') :
    s'.Records points (rays ++ [values]) := by
  obtain ⟨hsound, f, hf, hlog⟩ := h.sound.log_of_reported (.inr ⟨rfl, rfl⟩) hs
  obtain rfl := Facet.ofVector_eq_ok hf
  cases b with
  | false =>
    refine ⟨hsound, hlog ▸ h.points_eq, ?_⟩
    exact hlog ▸ h.rays_sublist.trans (List.sublist_append_left ..)
  | true =>
    refine ⟨hsound, ?_, ?_⟩
    · simpa [hlog, FacetLog.vectors_snoc] using h.points_eq
    · simpa [hlog, FacetLog.vectors_snoc, Facet.weightCoefficients] using h.rays_sublist

theorem reportPoint_ends (h : s.Records points rays) (point : List α) : Ends (reportPoint point) s
    (fun b s' => s'.Records (if b then points ++ [point] else points) rays) (fun _ _ => True) :=
  (Skeleton.reportPoint_ends point).mono (fun _ _ hs => h.of_reported_point hs) fun _ _ _ => trivial

theorem reportRay_ends (h : s.Records points rays) (ray : List α) : Ends (reportRay ray) s
    (fun _ s' => s'.Records points (rays ++ [ray])) (fun _ _ => True) :=
  (Skeleton.reportRay_ends ray).mono (fun _ _ hs => hs.elim fun _ hs => h.of_reported_ray hs)
    fun _ _ _ => trivial

theorem reportRaysFrom_ends (h : s.Records points rays) (batch : List (List α)) (total : CutStats)
    (applied : Nat) : Ends (reportRaysFrom total applied batch) s
      (fun _ s' => s'.Records points (rays ++ batch)) (fun _ _ => True) := by
  induction batch generalizing s rays total applied with
  | nil =>
    refine .bind (.modify (.pure ?_))
    rw [List.append_nil]
    exact ⟨(h.sound.step (.note s total)).1, h.points_eq, h.rays_sublist⟩
  | cons ray batch ih =>
    apply ((reportRayAnywhere_ends ray).mono (fun _ _ hs => h.of_reported_ray hs)
      fun _ _ _ => trivial).andThen
    intro b s' hs
    rw [List.append_cons]
    exact .bind (.get (ih hs _ _))

end Records

theorem records_of_build {p : Nat} {point : List α} {originating : Option Nat}
    {settings : Settings α} (h : build p point originating rays settings = .ok s) :
    s.Records [point] rays := by
  obtain ⟨s₀, applied, hstart, hreport⟩ := build_eq_ok h
  have hsound := isSound_of_start hstart
  obtain ⟨-, -, f, hf, rfl⟩ := start_eq_ok hstart
  obtain rfl := Facet.ofVector_eq_ok hf
  have hrecords : Records _ [point] [] := ⟨hsound, ?_, ?_⟩
  · exact (hrecords.reportRaysFrom_ends rays .zero 0).of_ok hreport
  · simp [FacetLog.vectors_snoc, FacetLog.vectors_ofSimplex, Facet.weightCoefficients]
  · simp [FacetLog.vectors_snoc, FacetLog.vectors_ofSimplex]

theorem after_concat (s : Skeleton α) (requests : List (Request α)) (request : Request α) :
    s.after (requests ++ [request]) = ((s.after requests).respond request).2 := by
  simp [after]

def Offers (s : Skeleton α) (w : List α) : Prop :=
  ∃ n v, n ∈ s.mesh.graph.untested ∧ s.mesh.graph.contains n ∧ s.mesh.vertex? n = some v ∧
    w = v.weight

end Skeleton

namespace Search

variable {σ ε : Type} {oracle : Oracle σ ε α} {search : Search α} {s₀ : Skeleton α}
  {probes asked : List (Call α)} {p : Nat} {settings : Settings α}

/-- The record of a search that made some calls before its skeleton was built, and some for it. -/
structure Agrees (search : Search α) (s₀ : Skeleton α) (probes asked : List (Call α)) : Prop where
  records : search.skeleton.Records search.points search.rays
  rays_eq : search.rays = (probes ++ asked).filterMap (·.2.ray?)
  history_length : search.history.length = asked.length
  calls_eq : search.calls = probes.length + asked.length
  skeleton_eq : search.skeleton = s₀.after (requests asked)
  offered : ∀ front w answer back, asked = front ++ (w, answer) :: back →
    (s₀.after (requests front)).Offers w

/-- What a skeleton does for a search is what a request does. -/
theorem act_perform_ends {β : Type} {s : Skeleton α} {action : Skeleton.Action α β}
    {done : β → Skeleton α → Prop} {failed : Skeleton.Error α → Skeleton α → Prop}
    (request : Request α) {response : β → Response α}
    (hperform : request.perform = response <$> action) (h : Ends action s done failed) (st : σ) :
    Ends (act (ε := ε) s action) st
      (fun result st' => st' = st ∧ done result.1 result.2 ∧ (s.respond request).2 = result.2)
      (fun _ _ => True) := by
  have hresponds : Ends action s (fun _ s' => (s.respond request).2 = s') fun _ _ => True := by
    refine .intro (fun b s' hok => ?_) fun _ _ _ => trivial
    simp [Skeleton.respond, hperform, Functor.map, EStateM.map, hok]
  exact act_ends (h.and hresponds) st fun _ _ _ => trivial

def probeRays (p : Nat) (rays : List (List α)) : List (Call α) :=
  rays.zipIdx.map fun (ray, i) => (Facet.unitVector p i, .ray ray)

theorem probeRays_concat (p : Nat) (rays : List (List α)) (ray : List α) :
    probeRays p (rays ++ [ray]) =
      probeRays p rays ++ [(Facet.unitVector p rays.length, .ray ray)] := by
  simp [probeRays, List.zipIdx_append]

def probeCalls (p : Nat) (rays : List (List α)) (point : List α) : List (Call α) :=
  probeRays p rays ++ [(Facet.unitVector p rays.length, .point point)]

theorem length_probeCalls (p : Nat) (rays : List (List α)) (point : List α) :
    (probeCalls p rays point).length = rays.length + 1 := by
  simp [probeCalls, probeRays]

theorem filterMap_probeCalls (p : Nat) (rays : List (List α)) (point : List α) :
    (probeCalls p rays point).filterMap (·.2.ray?) = rays := by
  simp [probeCalls, probeRays, List.filterMap_map, Answer.ray?]

/-- The unit weights are probed in order. -/
theorem probe_recorded_ends (oracle : Oracle σ ε α) (p : Nat) (count : Nat) (rays : List (List α))
    (st : σ) :
    Ends (probe (recorded oracle) p rays (List.range' rays.length count)) (st, probeRays p rays)
      (fun found state => ∀ i point, found.2 = some (i, point) →
        i = found.1.length ∧ state.2 = probeCalls p found.1 point)
      (fun _ _ => True) := by
  induction count generalizing rays st with
  | zero => exact .pure nofun
  | succ count ih =>
    rw [List.range'_succ]
    apply (ask_recorded_ends oracle _ _).andThen
    rintro answer ⟨st', calls⟩ hcalls
    cases answer with
    | point outcome =>
      refine .pure fun i point hfound => ?_
      cases hfound
      exact ⟨rfl, hcalls⟩
    | ray direction =>
      have hnext := ih (rays ++ [direction]) st'
      rw [probeRays_concat, List.length_append, List.length_singleton] at hnext
      obtain rfl : calls = _ := hcalls
      exact hnext

namespace Agrees

/-- A call for the weight that the skeleton hands out, and the report of its answer. -/
theorem snoc (h : search.Agrees s₀ probes asked) {w : List α} {answer : Answer α}
    {search' : Search α} {stats : CutStats}
    (hrecords : search'.skeleton.Records search'.points search'.rays)
    (hrays : search'.rays = search.rays ++ answer.ray?.toList)
    (hhistory : search'.history = search.history ++ [stats])
    (hcalls : search'.calls = search.calls + 1)
    (hoffers : search.skeleton.Offers w)
    (hskeleton : search'.skeleton =
      ((search.skeleton.respond .nextWeight).2.respond answer.request).2) :
    search'.Agrees s₀ probes (asked ++ [(w, answer)]) where
  records := hrecords
  rays_eq := by
    rw [hrays, h.rays_eq]
    cases hanswer : answer.ray? <;> simp [hanswer]
  history_length := by simp [hhistory, h.history_length]
  calls_eq := by simp [hcalls, h.calls_eq, Nat.add_assoc]
  skeleton_eq := by
    rw [hskeleton, h.skeleton_eq, requests_concat, Skeleton.after_concat, Skeleton.after_concat]
  offered front v answer' back heq := by
    -- the new call is the one split off, or an earlier one with the same calls before it
    rcases List.eq_nil_or_concat back with rfl | ⟨rest, last, rfl⟩
    · obtain ⟨rfl, hlast⟩ := List.append_inj' heq rfl
      cases hlast
      exact h.skeleton_eq ▸ hoffers
    · have hcut : asked ++ [(w, answer)] = (front ++ (v, answer') :: rest) ++ [last] := by
        simpa using heq
      exact h.offered front v answer' rest (List.append_inj' hcut rfl).1

/-- A step makes one call, and what it puts on record agrees with it. -/
theorem step_ends (h : search.Agrees s₀ probes asked) (st : σ) :
    Ends (step (recorded oracle) search) (st, probes ++ asked)
      (fun search' state => ∃ call, state.2 = probes ++ (asked ++ [call]) ∧
        search'.Agrees s₀ probes (asked ++ [call]))
      (fun _ _ => True) := by
  apply (act_perform_ends .nextWeight rfl (Skeleton.nextWeight_ends search.skeleton) _).andThen
  rintro ⟨w, s⟩ state ⟨rfl, ⟨hs, n, v, hn, hv, hw⟩, htaken⟩
  subst hs
  -- the weight handed out is that of an untested node
  have hoffers : search.skeleton.Offers w := by
    exact ⟨n, v, (Graph.takeUntested_eq_some hn).1, Mesh.contains_of_vertex? hv, hv, hw⟩
  apply (ask_recorded_ends oracle w _).andThen
  rintro answer ⟨st', calls⟩ hcalls
  simp only [List.append_assoc] at hcalls
  cases answer with
  | point outcome =>
    apply (act_perform_ends (.point outcome) rfl
      (h.records.taken.reportPoint_ends outcome) _).andThen
    rintro ⟨improves, s⟩ state ⟨rfl, hrecords, hreport⟩
    refine .pure ⟨_, hcalls, h.snoc hrecords ?_ rfl rfl hoffers ?_⟩
    · simp [Answer.ray?]
    · rw [htaken]
      exact hreport.symm
  | ray direction =>
    apply (act_perform_ends (.ray direction) rfl
      (h.records.taken.reportRay_ends direction) _).andThen
    rintro ⟨⟨⟩, s⟩ state ⟨rfl, hrecords, hreport⟩
    refine .pure ⟨_, hcalls, h.snoc hrecords rfl rfl rfl hoffers ?_⟩
    rw [htaken]
    exact hreport.symm

/-- The budget bounds the number of calls, and it is spent if weights are left. -/
theorem explore_ends (oracle : Oracle σ ε α) (h : search.Agrees s₀ probes asked) (budget : Nat)
    (st : σ) :
    Ends (explore (recorded oracle) budget search) (st, probes ++ asked)
      (fun search' state => ∃ asked', state.2 = probes ++ asked' ∧
        search'.Agrees s₀ probes asked' ∧ asked'.length ≤ asked.length + budget ∧
          (search'.isComplete = false → asked'.length = asked.length + budget))
      (fun _ _ => True) := by
  induction budget generalizing search asked st with
  | zero => exact .pure ⟨asked, rfl, h, le_rfl, fun _ => rfl⟩
  | succ budget ih =>
    unfold explore
    split_ifs with hnext
    · apply (h.step_ends st).andThen
      rintro search' ⟨st', calls⟩ ⟨call, rfl, h'⟩
      apply (ih h' st').mono ?_ fun _ _ => id
      rintro search'' state ⟨asked', hcalls, h'', hle, hspent⟩
      simp only [List.length_append, List.length_singleton] at hle hspent
      refine ⟨asked', hcalls, h'', by omega, fun hleft => ?_⟩
      rw [hspent hleft]
      omega
    · refine .pure ⟨asked, rfl, h, by omega, fun hleft => ?_⟩
      simp [isComplete, hnext] at hleft

end Agrees

/-- The search from scratch. -/
theorem run_recorded_ends (oracle : Oracle σ ε α) (p : Nat) (settings : Settings α) (budget : Nat)
    (st : σ) :
    Ends (run (recorded oracle) p settings budget) (st, [])
      (fun search state => ∃ rays point asked s₀,
        state.2 = probeCalls p rays point ++ asked ∧
          Skeleton.build p point (some rays.length) rays settings = .ok s₀ ∧
            search.Agrees s₀ (probeCalls p rays point) asked ∧ asked.length ≤ budget ∧
              (search.isComplete = false → asked.length = budget))
      (fun _ _ => True) := by
  unfold run
  split_ifs
  · exact .bind (.throw trivial)
  have hprobe := probe_recorded_ends oracle p p [] st
  rw [List.length_nil, ← List.range_eq_range'] at hprobe
  apply hprobe.andThen
  rintro ⟨rays, first⟩ ⟨st', calls⟩ hfirst
  cases first with
  | none => exact .throw trivial
  | some found =>
    obtain ⟨i, point⟩ := found
    obtain ⟨(rfl : i = rays.length), (rfl : calls = _)⟩ := hfirst i point rfl
    cases hbuild : Skeleton.build p point (some rays.length) rays settings with
    | error cause =>
      simp only [hbuild]
      exact .throw trivial
    | ok s =>
      simp only [hbuild]
      have hagrees :
          Agrees ⟨[point], rays, [], rays.length + 1, s⟩ s (probeCalls p rays point) [] := by
        refine ⟨Skeleton.records_of_build hbuild, ?_, rfl, ?_, rfl, ?_⟩
        · rw [List.append_nil, filterMap_probeCalls]
        · rw [length_probeCalls, List.length_nil]
        · intro front w answer back heq
          simp at heq
      have hexplore := hagrees.explore_ends oracle budget st'
      rw [List.append_nil] at hexplore
      apply hexplore.mono ?_ fun _ _ => id
      rintro search state ⟨asked, hcalls, h, hle, hspent⟩
      simp only [List.length_nil, Nat.zero_add] at hle hspent
      exact ⟨rays, point, asked, s, hcalls, hbuild, h, hle, hspent⟩

/-- A search that has a result, whatever the oracle answered. The points on record are those of the
facets, the facets of rays are of rays on record, each in their order, and besides there are the
sides of the simplex alone, which come first. The rays on record are all that were answered, and the
calls are the probes of unit weights and one for each entry of the history. The budget bounds the
history, and it is spent if weights are left. Each weight asked for after the probes was that of a
node untested then. -/
theorem record_agrees {budget : Nat} {st st' : σ}
    (h : run oracle p settings budget st = .ok search st') :
    ∃ (firstRays : List (List α)) (point : List α) (asked : List (Call α)) (s₀ : Skeleton α),
      let probes := probeCalls p firstRays point
      let log := search.skeleton.log
      run (recorded oracle) p settings budget (st, []) = .ok search (st', probes ++ asked) ∧
      Skeleton.build p point (some firstRays.length) firstRays settings = .ok s₀ ∧
      search.skeleton = s₀.after (requests asked) ∧
      search.points = log.vectors .point ∧
      (log.vectors .ray).Sublist search.rays ∧
      search.rays = (probes ++ asked).filterMap (·.2.ray?) ∧
      (∀ i < p, log.get? i = Facet.boundary? p i) ∧
      (∀ i f, p ≤ i → log.get? i = some f → f.kind = .point ∨ f.kind = .ray) ∧
      search.calls = probes.length + search.history.length ∧
      asked.length = search.history.length ∧
      search.history.length ≤ budget ∧
      (search.isComplete ↔ search.skeleton.mesh.graph.untested = []) ∧
      (search.isComplete = false → search.history.length = budget) ∧
      ∀ front w answer back, asked = front ++ (w, answer) :: back →
        let t := s₀.after (requests front)
        ∃ n v, n ∈ t.mesh.graph.untested ∧ t.mesh.graph.contains n ∧ t.mesh.vertex? n = some v ∧
          w = v.weight := by
  obtain ⟨calls, hrun⟩ := exists_recorded h
  obtain ⟨rays, point, asked, s₀, hcalls, hbuild, hagrees, hle, hspent⟩ :=
    (run_recorded_ends oracle p settings budget st).of_ok hrun
  obtain rfl : calls = _ := hcalls
  have hobj : search.skeleton.objectives = p :=
    hagrees.skeleton_eq ▸ (Skeleton.isSound_after hbuild (requests asked)).2.1
  have hlog := hobj ▸ hagrees.records.sound.log
  have hhistory := hagrees.history_length
  refine ⟨rays, point, asked, s₀, hrun, hbuild, hagrees.skeleton_eq, hagrees.records.points_eq.symm,
    hagrees.records.rays_sublist, hagrees.rays_eq, hlog.boundary,
    fun i f hi hf => (hlog.reported hi hf).kind, ?_, hhistory.symm, hhistory ▸ hle, ?_, ?_,
    hagrees.offered⟩
  · rw [hhistory]
    exact hagrees.calls_eq
  · simp [isComplete, Skeleton.hasNextWeight]
  · rw [hhistory]
    exact hspent

def scripted : Oracle (List (Answer α)) Unit α := fun _ script =>
  match script with
  | [] => .error () []
  | answer :: rest => .ok answer rest

theorem record_agrees_for_script : ∃ (search : Search Float) (rest : List (Answer Float)),
    run scripted 2 ⟨0, true, .deferred⟩ 1 [.ray [-1, 2], .point [2, 0], .point [0, 2]] =
      .ok search rest ∧ search.isComplete = false ∧ search.history.length = 1 ∧
        search.points = search.skeleton.log.vectors .point ∧
          (search.skeleton.log.vectors .ray).Sublist search.rays := by
  have hleft : (match run scripted 2 (⟨0, true, .deferred⟩ : Settings Float) 1
      [.ray [-1, 2], .point [2, 0], .point [0, 2]] with
      | .ok search _ => search.isComplete
      | .error .. => true) = false := by
    decide +kernel
  cases h : run scripted 2 (⟨0, true, .deferred⟩ : Settings Float) 1
      [.ray [-1, 2], .point [2, 0], .point [0, 2]] with
  | error e rest =>
    rw [h] at hleft
    cases hleft
  | ok search rest =>
    rw [h] at hleft
    obtain ⟨-, -, -, -, -, -, -, hpoints, hrays, -, -, -, -, -, -, -, hspent, -⟩ := record_agrees h
    exact ⟨search, rest, rfl, hleft, hspent hleft, hpoints, hrays⟩

end Search

end WeightPolyhedron
