import Mathlib
import WeightPolyhedron.Proofs.Exact.Distinct
import WeightPolyhedron.Proofs.Search.Run

/-!
Termination of the search. A report that cuts may open any number of weights for testing, but it
stores a facet that was not stored before, and there are no more of them than outcomes and
directions. Every other step leaves one untested weight less. So the search comes to its end, unless
no unit weight has a bounded answer.
-/

namespace WeightPolyhedron

open Relation (ReflTransGen)

namespace Skeleton

variable {β : Type} {s s' : Skeleton ℚ} {n : NodeKey} {bound p i : Nat} {y : List ℚ}
  {make : List ℚ → Except (Facet.Error ℚ) (Facet ℚ)} {values : List ℚ} {tolerance : Tolerance ℚ}
  {rays : List (List ℚ)} {settings : Settings ℚ}

/-- What is left to do: facets that may still be stored, and then untested nodes. -/
def rank (s : Skeleton ℚ) (bound : Nat) : ℕ ×ₗ ℕ :=
  toLex (bound - s.log.size, s.mesh.graph.untested.length)

theorem rank_taken_lt (hn : s.mesh.graph.takeUntested.1 = some n) :
    s.taken.rank bound < s.rank bound := by
  obtain ⟨hmem, htaken⟩ := Graph.takeUntested_eq_some hn
  refine Prod.Lex.toLex_lt_toLex.2 (.inr ⟨rfl, ?_⟩)
  dsimp only [taken]
  rw [htaken, List.length_erase_of_mem hmem]
  exact Nat.sub_lt (List.length_pos_of_mem hmem) Nat.one_pos

/-- Steps that may only open nodes for testing where they store a facet. -/
structure Advances (s s' : Skeleton ℚ) : Prop where
  steps : ReflTransGen Step s s'
  rank_le : ∀ {bound}, s'.log.size ≤ bound → s'.rank bound ≤ s.rank bound

theorem IsExact.advances_of_reported {Candidate : Facet ℚ → NodeKey → Prop} {b : Bool}
    (h : s.IsExact) (hsuits : s.Suits make tolerance)
    (hreported : s.Reported make values tolerance Candidate b s') : s.Advances s' := by
  refine ⟨(hsuits.once_of_reported hreported).to_reflTransGen, fun {bound} hbound => ?_⟩
  obtain ⟨f, hlength, hf, htries⟩ := hreported
  cases b with
  | false =>
    obtain ⟨-, rfl⟩ := htries
    exact le_rfl
  | true =>
    obtain ⟨seed, -, -, hcut⟩ := htries
    obtain ⟨-, -, hlog, -⟩ := h.sound.cut_eq_ok (hsuits.isReport hlength hf).1 hcut
    have hsize : s'.log.size = s.log.size + 1 := by rw [hlog, FacetLog.size_snoc]
    exact (Prod.Lex.toLex_lt_toLex.2 (.inl (by omega))).le

/-- The report of a vector of the right length succeeds. -/
theorem IsExact.advances (h : s.IsExact) (hsuits : s.Suits make tolerance)
    (hlength : values.length = s.objectives) {action : Action ℚ β}
    (hends : Ends action s
      (fun _ s' => ∃ Candidate b, s.Reported make values tolerance Candidate b s')
      (s.ReportFails make values tolerance)) :
    Ends action s (fun _ s' => s.Advances s') fun _ _ => False := by
  have hne : values ≠ [] := List.ne_nil_of_length_pos (hlength ▸ h.sound.positive)
  obtain ⟨f, hf⟩ : ∃ f, make values = .ok f := by
    rcases hsuits with ⟨rfl, -⟩ | ⟨rfl, -⟩ <;> exact ⟨_, Facet.ofVector_of_ne_nil hne⟩
  apply hends.mono
  · rintro _ s' ⟨Candidate, b, hreported⟩
    exact h.advances_of_reported hsuits hreported
  · exact fun e s' hfails => h.not_reportFails hsuits hlength hf hfails

theorem IsExact.reportPoint_advances (h : s.IsExact) (hlength : values.length = s.objectives) :
    Ends (reportPoint values) s (fun _ s' => s.Advances s') fun _ _ => False :=
  h.advances (.inl ⟨rfl, rfl⟩) hlength
    ((reportPoint_ends values).mono (fun b _ hs => ⟨_, b, hs⟩) fun _ _ => id)

theorem IsExact.reportRay_advances (h : s.IsExact) (hlength : values.length = s.objectives) :
    Ends (reportRay values) s (fun _ s' => s.Advances s') fun _ _ => False :=
  h.advances (.inr ⟨rfl, rfl⟩) hlength
    ((reportRay_ends values).mono (fun _ _ hs => ⟨_, hs⟩) fun _ _ => id)

theorem IsExact.reportRayAnywhere_advances (h : s.IsExact)
    (hlength : values.length = s.objectives) :
    Ends (reportRayAnywhere values) s (fun _ s' => s.Advances s') fun _ _ => False :=
  h.advances (.inr ⟨rfl, rfl⟩) hlength
    ((reportRayAnywhere_ends values).mono (fun b _ hs => ⟨_, b, hs⟩) fun _ _ => id)

theorem IsExact.reportRaysFrom_succeeds (h : s.IsExact) (rays : List (List ℚ))
    (hrays : ∀ r ∈ rays, r.length = s.objectives) (total : CutStats) (applied : Nat) :
    Ends (reportRaysFrom total applied rays) s (fun _ _ => True) fun _ _ => False := by
  induction rays generalizing s total applied with
  | nil => exact .bind (.modify (.pure trivial))
  | cons r rays ih =>
    obtain ⟨hr, hrest⟩ := List.forall_mem_cons.1 hrays
    apply (h.reportRayAnywhere_advances hr).andThen
    intro b s' hs
    have hobj := (h.sound.reaches hs.steps).2.1
    exact .bind (.get (ih (h.reaches hs.steps) (hobj ▸ hrest) _ _))

/-- A first point and rays of the right length make a skeleton. -/
theorem exists_build (hp : 0 < p) (hy : y.length = p) (hi : i < p)
    (hrays : ∀ r ∈ rays, r.length = p)
    (hmargin : 0 ≤ settings.epsilon) : ∃ s, build p y (some i) rays settings = .ok s := by
  have hne : y ≠ [] := List.ne_nil_of_length_pos (hy.symm ▸ hp)
  have hcorner : (some i).filter (p ≤ ·) = none := by simpa using hi
  have hstart := start_eq hp.ne' hy hcorner (Facet.ofVector_of_ne_nil hne) settings
  obtain ⟨applied, s, hok, -⟩ :=
    ((isExact_of_start hstart hmargin).reportRaysFrom_succeeds rays hrays .zero 0).exists_ok
      fun _ _ => id
  exact ⟨s, by simp [build, hstart, reportRays, hok, bind, Except.bind, pure, Except.pure]⟩

theorem IsSound.nextWeight_succeeds (h : s.IsSound) (hne : s.mesh.graph.untested ≠ []) :
    Ends nextWeight s (fun w s' => s' = s.taken ∧ ∃ n v, s.mesh.graph.takeUntested.1 = some n ∧
      s.mesh.vertex? n = some v ∧ w = v.weight) fun _ _ => False := by
  apply (nextWeight_ends s).mono fun _ _ => id
  rintro e s' ⟨-, ⟨hnil, -⟩ | ⟨n, hn, hnone⟩⟩
  · exact hne hnil
  · obtain ⟨v, hv, -⟩ := h.mesh.stored (h.mesh.simple.untested_contains hn)
    exact hnone v hv

end Skeleton

def Problem.facets {p : Nat} (P : Problem p) : Finset (Facet ℚ) :=
  (Finset.range p).image (fun i => ⟨Facet.unitVector p i ++ [0], .boundary⟩) ∪
    P.outcomes.image (fun y => (Answer.point y).facet) ∪
    P.directions.image fun r => (Answer.ray r).facet

namespace Search

variable {σ ε : Type} {p : Nat} {P : Problem p} {oracle : Oracle σ ε ℚ} {search : Search ℚ}
  {margin : ℚ} {w : List ℚ} {settings : Settings ℚ}

/-- The oracle answers every weight, and rightly, whether it has use for its state or not. -/
def Answers (oracle : Oracle σ ε ℚ) (P : Problem p) : Prop :=
  ∀ w st, IsWeight p w → ∃ answer st', oracle w st = .ok answer st' ∧ P.IsAnswer w answer

theorem Tracks.mem_facets (h : search.Tracks P margin) {id : FacetId} {f : Facet ℚ}
    (hf : search.skeleton.log.get? id = some f) : f ∈ P.facets := by
  have hlog := h.knows.exact.sound.log
  rw [h.knows.objectives_eq] at hlog
  simp only [Problem.facets, Finset.mem_union]
  by_cases hkind : f.kind = .boundary
  · have hid := (hlog.kind_eq_boundary_iff hf).1 hkind
    rw [hlog.boundary id hid, Facet.boundary?, if_pos hid, Option.some.injEq] at hf
    exact .inl (.inl (Finset.mem_image.2 ⟨id, Finset.mem_range.2 hid, hf⟩))
  · obtain ⟨a, ha, rfl⟩ := h.knows.stored hf hkind
    cases a with
    | point y => exact .inl (.inr (Finset.mem_image_of_mem _ (h.points_mem y ha)))
    | ray r => exact .inr (Finset.mem_image_of_mem _ (h.rays_mem r ha))

namespace Answers

theorem solves (h : Answers oracle P) : Solves oracle P := by
  intro w st answer st' hw heq
  obtain ⟨answer', st'', heq', hright⟩ := h w st hw
  obtain ⟨rfl, -⟩ := EStateM.Result.ok.inj (heq'.symm.trans heq)
  exact hright

theorem ask_ends (h : Answers oracle P) (hw : IsWeight p w) (st : σ) : Ends (ask oracle w) st
    (fun answer _ => P.IsAnswer w answer) fun _ _ => False := by
  obtain ⟨answer, st', heq, hright⟩ := h w st hw
  simpa [Ends, ask, heq] using hright

theorem probe_succeeds (h : Answers oracle P) (indices : List Nat) (hindices : ∀ i ∈ indices, i < p)
    (rays : List (List ℚ)) (st : σ) :
    Ends (probe oracle p rays indices) st (fun _ _ => True) fun _ _ => False := by
  induction indices generalizing rays st with
  | nil => exact .pure trivial
  | cons i indices ih =>
    obtain ⟨hi, hrest⟩ := List.forall_mem_cons.1 hindices
    apply (h.ask_ends (isWeight_unitVector ⟨i, hi⟩) st).andThen
    intro answer st' _
    cases answer with
    | point y => exact .pure trivial
    | ray r => exact ih hrest _ st'

/-- A step stores a facet or leaves one untested weight less. -/
theorem step_advances (h : Answers oracle P) (htracks : search.Tracks P margin)
    (hnext : search.skeleton.mesh.graph.untested ≠ []) (st : σ) : Ends (step oracle search) st
      (fun search' _ => ReflTransGen Skeleton.Step search.skeleton search'.skeleton ∧
        ∀ bound, search'.skeleton.log.size ≤ bound →
          search'.skeleton.rank bound < search.skeleton.rank bound)
      fun _ _ => False := by
  have hexact := htracks.knows.exact
  have hobj := htracks.knows.objectives_eq
  apply (act_ends (hexact.sound.nextWeight_succeeds hnext) st fun _ _ => id).andThen
  rintro ⟨w, s⟩ st' ⟨hst, hs, n, v, hn, hv, hw⟩
  subst hst hs hw
  have htaken : Skeleton.Step search.skeleton search.skeleton.taken := .take _
  have hdone {s : Skeleton ℚ} (hs : search.skeleton.taken.Advances s) :
      ReflTransGen Skeleton.Step search.skeleton s ∧ ∀ bound, s.log.size ≤ bound →
        s.rank bound < search.skeleton.rank bound :=
    ⟨.head htaken hs.steps, fun bound hle => (hs.rank_le hle).trans_lt (Skeleton.rank_taken_lt hn)⟩
  apply (h.ask_ends (hobj ▸ hexact.isWeight hv) st').andThen
  intro answer st'' hright
  cases answer with
  | point y =>
    have hlength := (P.outcomes_length hright.2.1).trans hobj.symm
    apply (act_ends ((hexact.step htaken).reportPoint_advances hlength) st'' fun _ _ => id).andThen
    exact fun _ _ hs => .pure (hdone hs.2)
  | ray r =>
    have hlength := (P.directions_length hright.1).trans hobj.symm
    apply (act_ends ((hexact.step htaken).reportRay_advances hlength) st'' fun _ _ => id).andThen
    exact fun _ _ hs => .pure (hdone hs.2)

theorem exists_budget (h : Answers oracle P) (htracks : search.Tracks P margin)
    (hnodup : search.skeleton.log.facets.toList.Nodup) (st : σ) :
    ∃ N, ∀ budget, ∃ search' st', explore oracle budget search st = .ok search' st' ∧
      search'.skeleton.log.facets.toList.Nodup ∧ (N ≤ budget → search'.isComplete) := by
  -- on what is left to do; where a step opens nodes for testing, a stored facet pays for them
  induction hrank : search.skeleton.rank P.facets.card using WellFoundedLT.induction
    generalizing search st with
  | ind rank ih =>
    subst hrank
    cases hnext : search.skeleton.hasNextWeight with
    | false =>
      refine ⟨0, fun budget => ⟨search, st, ?_, hnodup, fun _ => by simp [isComplete, hnext]⟩⟩
      cases budget <;> simp [explore, hnext, pure, EStateM.pure]
    | true =>
      have hne : search.skeleton.mesh.graph.untested ≠ [] := by
        simpa [Skeleton.hasNextWeight] using hnext
      obtain ⟨search', st', hstep, ⟨hsteps, hlt⟩, htracks'⟩ :=
        ((h.step_advances htracks hne st).and (step_ends h.solves htracks st)).exists_ok
          fun _ _ hfailed => hfailed.1
      have hnodup' := htracks.knows.exact.nodup_reaches hnodup hsteps
      have hsize := FacetLog.size_le_card hnodup' fun _ _ => htracks'.mem_facets
      obtain ⟨N, hN⟩ := ih _ (hlt _ hsize) htracks' hnodup' st' rfl
      refine ⟨N + 1, fun budget => ?_⟩
      cases budget with
      | zero => exact ⟨search, st, rfl, hnodup, fun hle => absurd hle (Nat.not_succ_le_zero N)⟩
      | succ budget =>
        obtain ⟨final, st'', hexplore, hdistinct, hcomplete⟩ := hN budget
        refine ⟨final, st'', ?_, hdistinct, fun hle => hcomplete (Nat.le_of_succ_le_succ hle)⟩
        simp [explore, hnext, bind, EStateM.bind, hstep, hexplore]

end Answers

theorem run_of_none {rays : List (List ℚ)} {st st' : σ} (hp : 0 < p)
    (h : probe oracle p [] (List.range p) st = .ok (rays, none) st') (budget : Nat) :
    run oracle p settings budget st = .error (.noBoundedPoint p) st' := by
  simp [run, hp.ne', bind, EStateM.bind, h, throw, throwThe, MonadExceptOf.throw, EStateM.throw]

theorem run_of_some {rays : List (List ℚ)} {i : Nat} {y : List ℚ} {s : Skeleton ℚ} {st st' : σ}
    (hp : 0 < p) (h : probe oracle p [] (List.range p) st = .ok (rays, some (i, y)) st')
    (hbuild : Skeleton.build p y (some i) rays settings = .ok s) (budget : Nat) :
    run oracle p settings budget st =
      explore oracle budget ⟨[y], rays, [], rays.length + 1, s⟩ st' := by
  simp [run, hp.ne', bind, EStateM.bind, h, hbuild]

/-- A search with an oracle that answers every weight. Either all unit weights are answered with
directions, and it fails for every budget; or it always has a result, no facet is stored twice in
it, and from some budget on no weight is left untested. -/
theorem run_terminates (hp : 0 < p) (hanswers : Answers oracle P) (hmargin : 0 ≤ settings.epsilon)
    (st : σ) :
    (∃ st', ∀ budget, run oracle p settings budget st = .error (.noBoundedPoint p) st') ∨
      ∃ N, ∀ budget, ∃ search st', run oracle p settings budget st = .ok search st' ∧
        search.skeleton.log.facets.toList.Nodup ∧ (N ≤ budget → search.isComplete) := by
  have hindices : ∀ i ∈ List.range p, i < p := fun i => List.mem_range.1
  obtain ⟨⟨rays, first⟩, st', hprobe, -, hrays, hfirst⟩ :=
    ((hanswers.probe_succeeds _ hindices [] st).and
      (probe_ends hanswers.solves _ hindices [] (by simp) st)).exists_ok
        fun _ _ hfailed => hfailed.1
  cases first with
  | none => exact .inl ⟨st', run_of_none hp hprobe⟩
  | some found =>
    right
    obtain ⟨i, y⟩ := found
    obtain ⟨hi, hright⟩ := hfirst i y rfl
    obtain ⟨s, hbuild⟩ := Skeleton.exists_build hp (P.outcomes_length hright.2.1) hi
      (fun r hr => P.directions_length (hrays r hr)) hmargin
    simp only [run_of_some hp hprobe hbuild]
    have htracks : Tracks ⟨[y], rays, [], rays.length + 1, s⟩ P settings.epsilon := by
      refine ⟨List.forall_mem_singleton.2 hright.2.1, by simp, hrays, ?_⟩
      exact Skeleton.knows_of_build hbuild hi hmargin hright (List.mem_singleton_self y)
        fun r hr => hr
    obtain ⟨s₀, hstart, hsteps⟩ := Skeleton.reaches_build hbuild
    have hnodup := (Skeleton.isExact_of_start hstart hmargin).nodup_reaches
      (Skeleton.nodup_of_start hstart) hsteps
    exact hanswers.exists_budget htracks hnodup st'

theorem run_terminates_for_two_outcomes : ∃ N, ∀ budget, ∃ search st',
    run twoOutcomesOracle 2 ⟨1/10, true, .deferred⟩ budget () = .ok search st' ∧
      search.skeleton.log.facets.toList.Nodup ∧ (N ≤ budget → search.isComplete) := by
  have hanswers : Answers twoOutcomesOracle twoOutcomes := fun w st hw =>
    ⟨_, st, rfl, twoOutcomesOracle_solves w st _ st hw rfl⟩
  have hmargin : 0 ≤ (⟨1/10, true, .deferred⟩ : Settings ℚ).epsilon := by norm_num
  have hbegins :
      ((run twoOutcomesOracle 2 ⟨1/10, true, .deferred⟩ 0).run' ()).isSome = true := by
    decide +kernel
  rcases run_terminates two_pos hanswers hmargin () with ⟨st', hfails⟩ | hends
  · rw [EStateM.run', EStateM.run, hfails 0] at hbegins
    cases hbegins
  · exact hends

end Search

end WeightPolyhedron
