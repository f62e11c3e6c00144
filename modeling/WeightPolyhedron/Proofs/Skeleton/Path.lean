import WeightPolyhedron.Proofs.Cut.Path
import WeightPolyhedron.Proofs.Skeleton.History

/-!
Skeletons over two objectives. As long as points alone are reported and no cut fails, the nodes form
a path between the two corners of the simplex, whatever is rounded meanwhile, and both audits pass.
-/

namespace WeightPolyhedron

variable {α : Type} [Scalar α]

omit [Scalar α] in
theorem Mesh.IsPath.takeUntested {m : Mesh α} {bound : Nat} {first last : NodeKey}
    {steps : List (NodeKey × FacetId)} (h : m.IsPath bound first last steps) :
    Mesh.IsPath { m with graph := m.graph.takeUntested.2 } bound first last steps where
  sound := h.sound.takeUntested
  complete hv hw hvw := by
    rw [vertex?_takeUntested] at hv hw
    simpa only [Graph.neighbors, Graph.takeUntested_nodes] using h.complete hv hw hvw
  chain := h.chain.congr fun n _ => vertex?_takeUntested m n
  contains_iff {n} := by
    simpa only [Graph.contains, Graph.takeUntested_nodes] using h.contains_iff (n := n)
  labels_nodup := h.labels_nodup
  head_eq := h.head_eq
  last_eq := h.last_eq
  ne := h.ne

namespace Skeleton

variable {s s' : Skeleton α} {f : Facet α} {seed first last n : NodeKey} {point : List α}
  {originating : Option Nat} {settings : Settings α} {request : Request α}

/-- A skeleton over two objectives and under points alone, with a path from the corner `(0, 1)` to
the corner `(1, 0)`. -/
structure IsPath (s : Skeleton α) (first last : NodeKey) : Prop where
  sound : s.IsSound
  objectives_eq : s.objectives = 2
  kind_eq : ∀ {i f}, 2 ≤ i → s.log.get? i = some f → f.kind = .point
  path : ∃ steps, s.mesh.IsPath s.log.size first last steps
  first_weight : ∃ v, s.mesh.vertex? first = some v ∧ v.weight = [0, 1]
  last_weight : ∃ v, s.mesh.vertex? last = some v ∧ v.weight = [1, 0]

namespace IsPath

variable (h : s.IsPath first last)

include h

/-- The vertical facets are the sides of the simplex. -/
theorem isVertical_iff {i : FacetId} (hi : i < s.log.size) : s.log.isVertical i ↔ i < 2 := by
  have hlog := h.objectives_eq ▸ h.sound.log
  by_cases hi2 : i < 2
  · have hside := hlog.boundary i hi2
    rw [Facet.boundary?, if_pos hi2] at hside
    simp [FacetLog.isVertical_of_get? hside, hi2, Facet.isVertical]
  · obtain ⟨f, hget⟩ := FacetLog.exists_get? hi
    have hkind := h.kind_eq (Nat.not_lt.1 hi2) hget
    rw [FacetLog.isVertical_of_get? hget]
    simp [hi2, Facet.isVertical, hkind]

theorem taken : s.taken.IsPath first last where
  sound := (h.sound.step (.take s)).1
  objectives_eq := h.objectives_eq
  kind_eq := h.kind_eq
  path := by
    obtain ⟨steps, hsteps⟩ := h.path
    exact ⟨steps, hsteps.takeUntested⟩
  first_weight := by simpa only [Skeleton.taken, Mesh.vertex?_takeUntested] using h.first_weight
  last_weight := by simpa only [Skeleton.taken, Mesh.vertex?_takeUntested] using h.last_weight

theorem note (stats : CutStats) : ({ s with stats } : Skeleton α).IsPath first last :=
  ⟨(h.sound.step (.note s stats)).1, h.objectives_eq, h.kind_eq, h.path, h.first_weight,
    h.last_weight⟩

theorem validate_eq_ok : s.validate = .ok () := by
  obtain ⟨steps, hsteps⟩ := h.path
  have hstructure := hsteps.sound.auditStructure_eq_ok
  have hcomplete := hsteps.sound.auditCompleteness_eq_ok hsteps.complete
  simp [validate, Mesh.audit, h.objectives_eq, hstructure, hcomplete, bind, Except.bind]

theorem cut (hf : f.IsReport s.objectives) (hkind : f.kind = .point)
    (htested : s.Tested f (s.toleranceFor f) seed) (hcut : s.cut f seed = .ok () s') :
    s'.IsPath first last := by
  obtain ⟨hobj, -, hlog, -, r, created, origin, hregion, heffect⟩ := h.sound.cut_eq_ok hf hcut
  obtain ⟨steps, hsteps⟩ := h.path
  have hsides : ∀ i < s.log.size, s'.log.isVertical i ↔ i < 2 := by
    intro i hi
    rw [hlog, FacetLog.isVertical_snoc_of_lt hi, h.isVertical_iff hi]
  rw [h.objectives_eq] at heffect
  obtain ⟨steps', hsteps'⟩ := heffect.isPath hsteps hregion hkind hsides
  -- a node that stays keeps its weight
  have hweight {n : NodeKey} {w : List α} (hn' : s'.mesh.graph.contains n)
      (hw : ∃ v, s.mesh.vertex? n = some v ∧ v.weight = w) :
      ∃ v, s'.mesh.vertex? n = some v ∧ v.weight = w := by
    obtain ⟨v, hv, rfl⟩ := hw
    rcases heffect.kept_or_lowered (Mesh.contains_of_vertex? hv) hn' with ⟨-, -, hkept⟩ | ⟨hr, hl⟩
    · exact ⟨v, hkept.trans hv, rfl⟩
    · obtain ⟨v', w, hv', hw, hn⟩ := heffect.lowered_vertex hr hl
      obtain rfl := Option.some.inj (hv.symm.trans hv')
      exact ⟨w, hn, Vertex.weight_descend hw⟩
  refine ⟨(h.sound.step (.cut hf htested hcut)).1, hobj.trans h.objectives_eq, ?_, ⟨steps', ?_⟩,
    ?_, ?_⟩
  · intro i g hi hg
    rw [hlog, FacetLog.get?_snoc] at hg
    split_ifs at hg
    · exact Option.some.inj hg ▸ hkind
    · exact h.kind_eq hi hg
  · rwa [hlog, FacetLog.size_snoc]
  · exact hweight hsteps'.contains_first h.first_weight
  · exact hweight hsteps'.contains_last h.last_weight

theorem of_reported {make : List α → Except (Facet.Error α) (Facet α)} {values : List α}
    {tolerance : Tolerance α} {Candidate : Facet α → NodeKey → Prop} {b : Bool}
    (hsuits : s.Suits make tolerance) (hmake : make = Facet.ofPoint)
    (hs : s.Reported make values tolerance Candidate b s') : s'.IsPath first last := by
  obtain ⟨f, hlength, hf, htries⟩ := hs
  obtain ⟨hreport, rfl⟩ := hsuits.isReport hlength hf
  cases b with
  | false =>
    obtain ⟨-, rfl⟩ := htries
    exact h.note _
  | true =>
    obtain ⟨seed, -, htested, hcut⟩ := htries
    exact h.cut hreport (Facet.kind_of_ofPoint (hmake ▸ hf)) htested hcut

/-- The requests without rays keep the path, unless a cut fails. -/
theorem respond (hrequest : request = .nextWeight ∨ request.IsPoint)
    (hpass : ∀ cause, (s.respond request).1 ≠ .error (.cut cause)) :
    (s.respond request).2.IsPath first last := by
  rcases hrequest with rfl | hpoint
  · rcases h.sound.respond_nextWeight with ⟨hrespond, -⟩ | ⟨n, v, -, -, hrespond, -⟩
    · rwa [hrespond]
    · rw [hrespond]
      exact h.taken
  · obtain ⟨values, hreport⟩ : ∃ values, request.report? = some (Facet.ofPoint, values) := by
      cases request with
      | point values | pointAnywhere values => exact ⟨values, rfl⟩
      | nextWeight | ray | rayAnywhere | rays => exact hpoint.elim
    obtain ⟨tolerance, hsuits, hends⟩ := perform_ends (s := s) hreport
    unfold Skeleton.respond at hpass ⊢
    cases hperform : request.perform s with
    | ok response s' =>
      obtain ⟨Candidate, b, hs⟩ := hends.of_ok hperform
      exact h.of_reported hsuits rfl hs
    | error e s' =>
      rw [h.sound.eq_of_fails hsuits (hends.of_error hperform) (by simpa [hperform] using hpass)]
      exact h

theorem after {requests : List (Request α)}
    (hrequests : ∀ request ∈ requests, request = .nextWeight ∨ request.IsPoint)
    (hpass : s.CutsPass requests) : (s.after requests).IsPath first last := by
  induction requests generalizing s with
  | nil => exact h
  | cons request requests ih =>
    obtain ⟨hfirst, hrest⟩ := List.forall_mem_cons.1 hrequests
    exact ih (h.respond hfirst hpass.1) hrest hpass.2

end IsPath

omit [Scalar α] in
theorem Clique.isComplete {m : Mesh α} {p bound : Nat} {nodes : List NodeKey}
    {corners : List (Vertex α × Bool)} {origin : NodeKey → Vertex α × Bool}
    (h : Clique m p bound nodes corners origin) : m.IsComplete := by
  intro n u v w hv hw hvw
  exact h.mem_neighbors.2 ⟨h.mem_of_contains (Mesh.contains_of_vertex? hv),
    h.mem_of_contains (Mesh.contains_of_vertex? hw), h.sound.ne_of_isNeighbour hv hw hvw⟩

/-- The mesh of a first point over two objectives has two corners. -/
theorem exists_two_corners (x y : α) (originating : Option Nat) : ∃ n k origin,
    Clique (cornerMesh [x, y] 2 originating) 2 3 [n, k] (cornersOver [x, y] originating) origin ∧
      (∃ v, (cornerMesh [x, y] 2 originating).vertex? n = some v ∧ v.weight = [1, 0] ∧
        v.facets = [1, 2]) ∧
      ∃ v, (cornerMesh [x, y] 2 originating).vertex? k = some v ∧ v.weight = [0, 1] ∧
        v.facets = [0, 2] := by
  obtain ⟨nodes, origin, hclique⟩ := clique_cornerMesh [x, y] originating
  have hmap := hclique.map_origin
  simp only [cornersOver, List.zipIdx_cons, List.zipIdx_nil, List.filterMap_cons,
    List.filterMap_nil, List.length_cons, List.length_nil, Vertex.corner?] at hmap
  simp only [Nat.reduceAdd, Nat.reduceLT, if_true, Option.map_some, List.map_eq_cons_iff,
    List.map_eq_nil_iff] at hmap
  obtain ⟨n, _, rfl, hn, k, _, rfl, hk, rfl⟩ := hmap
  refine ⟨n, k, origin, hclique, ⟨_, hclique.vertex?_eq (List.mem_cons_self ..), ?_, ?_⟩, _,
    hclique.vertex?_eq (List.mem_cons_of_mem _ (List.mem_cons_self ..)), ?_, ?_⟩
  · simp [hn, Facet.unitVector, List.range_succ]
  · rw [hn]
    rfl
  · simp [hk, Facet.unitVector, List.range_succ]
  · rw [hk]
    rfl

omit [Scalar α] in
theorem Clique.isPath {m : Mesh α} {k : NodeKey} {corners : List (Vertex α × Bool)}
    {origin : NodeKey → Vertex α × Bool} {v w : Vertex α}
    (h : Clique m 2 3 [n, k] corners origin) (hv : m.vertex? n = some v) (hvf : v.facets = [1, 2])
    (hw : m.vertex? k = some w) (hwf : w.facets = [0, 2]) : m.IsPath 3 k n [(k, 2), (n, 1)] := by
  have hn (i : FacetId) : m.OnFacet n i ↔ i = 2 ∨ i = 1 := by
    simp [Mesh.onFacet_iff hv, hvf, or_comm]
  have hk (i : FacetId) : m.OnFacet k i ↔ i = 0 ∨ i = 2 := by
    simp [Mesh.onFacet_iff hw, hwf]
  refine ⟨h.sound, h.isComplete, ⟨hk, hn, trivial⟩, fun {u} => ?_, by simp, rfl, rfl, ?_⟩
  · constructor
    · intro hu
      simpa [or_comm] using h.mem_of_contains hu
    · intro hu
      have hu' : u = k ∨ u = n := by simpa using hu
      rcases hu' with rfl | rfl
      exacts [Mesh.contains_of_vertex? hw, Mesh.contains_of_vertex? hv]
  · rintro rfl
    simpa using (hn 0).1 ((hk 0).2 (.inl rfl))

/-- The corners of the simplex are a path of two nodes. -/
theorem isPath_of_start (h : start 2 point originating settings = .ok s) :
    ∃ first last, s.IsPath first last := by
  have hsound := isSound_of_start h
  obtain ⟨-, hlength, f, hf, rfl⟩ := start_eq_ok h
  obtain ⟨x, y, rfl⟩ := List.length_eq_two.1 hlength
  obtain ⟨n, k, origin, hclique, ⟨v, hv, hvw, hvf⟩, w, hw, hww, hwf⟩ :=
    exists_two_corners x y originating
  have hpath := hclique.isPath hv hvf hw hwf
  refine ⟨k, n, hsound, rfl, ?_, ⟨[(k, 2), (n, 1)], ?_⟩, ⟨w, hw, hww⟩, v, hv, hvw⟩
  · intro i g hi hg
    rw [FacetLog.get?_snoc, FacetLog.size_ofSimplex] at hg
    split_ifs at hg
    · exact Option.some.inj hg ▸ Facet.kind_of_ofPoint hf
    · have hlt := FacetLog.lt_size_of_get? hg
      rw [FacetLog.size_ofSimplex] at hlt
      exact absurd hlt (Nat.not_lt.2 hi)
  · rwa [FacetLog.size_snoc, FacetLog.size_ofSimplex]

theorem exists_isPath_of_build (h : build 2 point originating [] settings = .ok s) :
    ∃ first last, s.IsPath first last := by
  obtain ⟨s₀, applied, hstart, hrays⟩ := build_eq_ok h
  obtain ⟨first, last, hs₀⟩ := isPath_of_start hstart
  -- a batch of no directions notes its statistics
  obtain ⟨-, rfl⟩ : 0 = applied ∧ ({ s₀ with stats := .zero } : Skeleton α) = s := by
    simpa [reportRays, reportRaysFrom, modify, modifyGet, MonadStateOf.modifyGet, EStateM.modifyGet,
      bind, EStateM.bind, pure, EStateM.pure] using hrays
  exact ⟨first, last, hs₀.note .zero⟩

/-- Over two objectives and under points alone, the graph is a path, whatever is rounded: as long as
no cut fails, the nodes stand in a row from the corner of weight `(0, 1)` to the corner of weight
`(1, 0)`, both the same nodes all along, and each edge joins a node to the next one. The ends of an
edge have one facet in common, that of a point, and another one for each edge. Only the corners are
on a side of the simplex, each on one, so that every vertex between them is defined by two points.
Both audits pass. -/
theorem path_after_build (h : build 2 point originating [] settings = .ok s) :
    ∃ first last, ∀ requests : List (Request α),
      (∀ request ∈ requests, request = .nextWeight ∨ request.IsPoint) → s.CutsPass requests →
      let t := s.after requests
      let g := t.mesh.graph
      t.validate = .ok () ∧ ∃ (nodes : List NodeKey) (shared : List FacetId),
        nodes.head? = some first ∧ nodes.getLast? = some last ∧ shared ≠ [] ∧
        nodes.length = shared.length + 1 ∧ nodes.Nodup ∧ (∀ n, g.contains n ↔ n ∈ nodes) ∧
        (∀ e, e ∈ g.edges ↔ ∃ (i : Nat) (n u : NodeKey), nodes[i]? = some n ∧
          nodes[i + 1]? = some u ∧ e = .between n u) ∧
        shared.Nodup ∧ (∀ c ∈ shared, ∃ f, t.log.get? c = some f ∧ f.kind = .point) ∧
        (∀ (i : Nat) (n u : NodeKey), nodes[i]? = some n → nodes[i + 1]? = some u →
          ∃ c v w, shared[i]? = some c ∧ t.mesh.vertex? n = some v ∧ t.mesh.vertex? u = some w ∧
            v.facetSet ∩ w.facetSet = {c}) ∧
        (∃ v, t.mesh.vertex? first = some v ∧ v.weight = [0, 1] ∧ v.facetSet.filter (· < 2) = {0}) ∧
        (∃ v, t.mesh.vertex? last = some v ∧ v.weight = [1, 0] ∧ v.facetSet.filter (· < 2) = {1}) ∧
        ∀ n v, n ≠ first → n ≠ last → t.mesh.vertex? n = some v →
          v.facetSet.card = 2 ∧ ∀ i ∈ v.facets, i ∈ shared := by
  obtain ⟨first, last, hs⟩ := exists_isPath_of_build h
  refine ⟨first, last, fun requests hrequests hpass => ?_⟩
  have ht := hs.after hrequests hpass
  intro t g
  obtain ⟨steps, hsteps⟩ := ht.path
  have hlabels := hsteps.labels_eq ▸ hsteps.labels_nodup
  have hsides {n : NodeKey} {v : Vertex α} (hv : t.mesh.vertex? n = some v) (i : FacetId) :
      i ∈ v.facetSet.filter (· < 2) ↔ (n = first ∧ i = 0) ∨ (n = last ∧ i = 1) := by
    rw [Finset.mem_filter, ← Mesh.onFacet_iff hv]
    constructor
    · rintro ⟨hi, hi2⟩
      exact (hsteps.onFacet_side_iff hi2).1 hi
    · intro hi
      have hi2 : i < 2 := by rcases hi with ⟨-, rfl⟩ | ⟨-, rfl⟩ <;> simp
      exact ⟨(hsteps.onFacet_side_iff hi2).2 hi, hi2⟩
  refine ⟨ht.validate_eq_ok, steps.map Prod.fst, (steps.map Prod.snd).dropLast, ?_, ?_,
    hsteps.dropLast_ne_nil, ?_, hsteps.nodup, fun n => hsteps.contains_iff,
    fun e => hsteps.mem_edges_iff, ?_, ?_, ?_, ?_, ?_, ?_⟩
  · rw [List.head?_map, hsteps.head_eq]
  · rw [List.getLast?_map, hsteps.last_eq, Option.map_some]
  · rw [List.length_map, ← hsteps.length_eq]
  · exact (List.nodup_append'.1 (List.nodup_cons.1 hlabels).2).1
  · intro c hc
    have hlt := hsteps.lt_of_mem_labels (List.mem_cons_of_mem _ (List.mem_of_mem_dropLast hc))
    obtain ⟨f, hget⟩ := FacetLog.exists_get? hlt
    exact ⟨f, hget, ht.kind_eq (hsteps.two_le_of_mem hc) hget⟩
  · intro i n u hn hu
    obtain ⟨c, hc, hshared⟩ := hsteps.exists_between hn hu
    obtain ⟨⟨v, hv, -⟩, w, hw, -⟩ := (hshared c).2 rfl
    refine ⟨c, v, w, hc, hv, hw, ?_⟩
    ext j
    rw [Finset.mem_inter, Finset.mem_singleton, ← hshared, Mesh.onFacet_iff hv, Mesh.onFacet_iff hw]
  · obtain ⟨v, hv, hweight⟩ := ht.first_weight
    refine ⟨v, hv, hweight, ?_⟩
    ext i
    rw [hsides hv, Finset.mem_singleton]
    simp [hsteps.ne]
  · obtain ⟨v, hv, hweight⟩ := ht.last_weight
    refine ⟨v, hv, hweight, ?_⟩
    ext i
    rw [hsides hv, Finset.mem_singleton]
    simp [hsteps.ne.symm]
  · intro n v hfirst hlast hv
    refine ⟨(hsteps.sound.isShaped hv).card_facetSet, fun i hi => ?_⟩
    have hni : t.mesh.OnFacet n i := ⟨v, hv, Vertex.mem_facetSet.2 hi⟩
    refine hsteps.mem_of_two_le hni (Nat.not_lt.1 fun hi2 => ?_)
    rcases (hsteps.onFacet_side_iff hi2).1 hni with ⟨rfl, -⟩ | ⟨rfl, -⟩
    exacts [hfirst rfl, hlast rfl]

/-- Here the second point lowers both corners, and the third one of them, with a new vertex between
them. -/
theorem path_after_three_reports : ∃ s : Skeleton Float, build 2 [3, 5] none [] .standard = .ok s ∧
    s.CutsPass [.nextWeight, .point [2, 4], .pointAnywhere [4, 1]] ∧
      (s.after [.nextWeight, .point [2, 4], .pointAnywhere [4, 1]]).validate = .ok () := by
  have hrun : (build 2 [3, 5] none [] Settings.standard).toOption.any fun s =>
      (s.respond .nextWeight).1.isOk &&
        ((s.respond .nextWeight).2.respond (.point [2, 4])).1.isOk &&
        (((s.respond .nextWeight).2.respond (.point [2, 4])).2.respond
          (.pointAnywhere [4, 1])).1.isOk := by
    decide +kernel
  obtain ⟨s, hs, hrun⟩ := exists_ok_of_any hrun
  simp only [Bool.and_eq_true] at hrun
  have hpass : s.CutsPass [.nextWeight, .point [2, 4], .pointAnywhere [4, 1]] := by
    refine ⟨fun cause hcut => ?_, fun cause hcut => ?_, fun cause hcut => ?_, trivial⟩
    · exact absurd hrun.1.1 (by simp [hcut, Except.isOk, Except.toBool])
    · exact absurd hrun.1.2 (by simp [hcut, Except.isOk, Except.toBool])
    · exact absurd hrun.2 (by simp [hcut, Except.isOk, Except.toBool])
  obtain ⟨first, last, hpath⟩ := path_after_build hs
  refine ⟨s, hs, hpass, (hpath _ ?_ hpass).1⟩
  simp [Request.IsPoint]

end Skeleton

end WeightPolyhedron
