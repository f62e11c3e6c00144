import WeightPolyhedron.Proofs.Skeleton.Fresh
import WeightPolyhedron.Proofs.Skeleton.Report

/-!
Vertical edges. Nothing is assumed of the arithmetic, and calls may fail. A vertex on a vertical
edge stays there for as long as its node lives: its weight and its vertical facets are fixed, and a
point only replaces the facet that remains. Its node only leaves by a ray that has it in its region,
so that without rays the corners of the simplex stay for good.
-/

namespace WeightPolyhedron

open Relation (ReflTransGen)

namespace Vertex

variable {α : Type} {v u w : Vertex α} {log log' log'' : FacetLog α} {f : Facet α} {p : Nat}

/-- The second vertex is on the vertical edge of the first one, each with the log of its time. -/
structure SameEdge (v : Vertex α) (log : FacetLog α) (u : Vertex α) (log' : FacetLog α) : Prop where
  weight_eq : u.weight = v.weight
  vertical_eq : u.facetSet.filter (log'.isVertical ·) = v.facetSet.filter (log.isVertical ·)
  tops : u.hasVerticalEdge log'

namespace SameEdge

theorem refl (h : v.hasVerticalEdge log) : v.SameEdge log v log := ⟨rfl, rfl, h⟩

theorem trans (h : v.SameEdge log u log') (h' : u.SameEdge log' w log'') :
    v.SameEdge log w log'' :=
  ⟨h'.weight_eq.trans h.weight_eq, h'.vertical_eq.trans h.vertical_eq, h'.tops⟩

end SameEdge

/-- Facets that are stored later do not matter to a vertex. -/
theorem filter_vertical_snoc (hv : v.IsShaped p log.size) (f : Facet α) :
    v.facetSet.filter ((log.snoc f).isVertical ·) = v.facetSet.filter (log.isVertical ·) :=
  Finset.filter_congr fun i hi => by
    rw [FacetLog.isVertical_snoc_of_lt (hv.facets_lt i (mem_facetSet.1 hi))]

theorem sameEdge_snoc (hv : v.IsShaped p log.size) (h : v.hasVerticalEdge log) (f : Facet α) :
    v.SameEdge log v (log.snoc f) := by
  refine ⟨rfl, filter_vertical_snoc hv f, ?_⟩
  rw [hasVerticalEdge_iff hv, filter_vertical_snoc hv]
  exact (hasVerticalEdge_iff hv).1 h

/-- Of the facets that a vertex has after its descent, only the new one is not vertical. -/
theorem sameEdge_descend [Scalar α] (hv : v.IsShaped p log.size) (hkind : f.kind = .point)
    (hw : v.descend log.size f (log.snoc f) = .ok w) :
    v.SameEdge log w (log.snoc f) ∧
      w.facetSet = insert log.size (v.facetSet.filter (log.isVertical ·)) := by
  have hfacets := facetSet_descend hw hv
  rw [filter_vertical_snoc hv] at hfacets
  have hnew : (log.snoc f).isVertical log.size = false := by
    simp [FacetLog.isVertical, Facet.isVertical, hkind]
  have hvertical : w.facetSet.filter ((log.snoc f).isVertical ·) =
      v.facetSet.filter (log.isVertical ·) := by
    rw [hfacets, Finset.filter_insert, if_neg (by simp [hnew]), ← filter_vertical_snoc hv f,
      Finset.filter_filter]
    simp
  refine ⟨⟨weight_descend hw, hvertical, ?_⟩, hfacets⟩
  rw [hasVerticalEdge_iff (descend_isShaped hw hv), hvertical, ← filter_vertical_snoc hv]
  exact (hasVerticalEdge_iff hv).1 (descend_eq_ok hw).1

/-- The vertical facets of a corner are the sides of the simplex through it. -/
theorem filter_vertical_corner [Scalar α] {i : Nat} {value : α} (hlog : log.IsSound p)
    (hlast : log.isVertical p = false) (h : corner? i p value p = some v) :
    v.facetSet.filter (log.isVertical ·) = (Finset.range p).erase i := by
  ext k
  rw [corner?_facetSet h, Finset.mem_filter, Finset.mem_erase, Finset.mem_erase, Finset.mem_range,
    Finset.mem_range, Nat.lt_succ_iff_lt_or_eq]
  constructor
  · rintro ⟨⟨hki, hk | rfl⟩, hvertical⟩
    · exact ⟨hki, hk⟩
    · rw [hlast] at hvertical
      cases hvertical
  · exact fun hk => ⟨⟨hk.1, .inl hk.2⟩, hlog.isVertical_of_lt hk.2⟩

/-- The facet of a vertex on a vertical edge that is not vertical stems from a point. -/
theorem exists_remaining (hv : v.IsShaped p log.size) (htop : v.hasVerticalEdge log) :
    ∃ id f, log.get? id = some f ∧ f.kind = .point ∧
      v.facetSet = insert id (v.facetSet.filter (log.isVertical ·)) := by
  have hcard := (hasVerticalEdge_iff hv).1 htop
  have hsplit := Finset.card_filter_add_card_filter_not (s := v.facetSet) (log.isVertical · = true)
  rw [hv.card_facetSet] at hsplit
  obtain ⟨id, hid⟩ := Finset.card_eq_one.1
    (show (v.facetSet.filter fun i => ¬ log.isVertical i = true).card = 1 by omega)
  obtain ⟨hmem, hnot⟩ := Finset.mem_filter.1 (hid ▸ Finset.mem_singleton_self id)
  obtain ⟨f, hf⟩ := FacetLog.exists_get? (hv.facets_lt id (mem_facetSet.1 hmem))
  refine ⟨id, f, hf, ?_, ?_⟩
  · simpa [FacetLog.isVertical_of_get? hf, Facet.isVertical] using hnot
  · rw [Finset.insert_eq, ← hid, Finset.union_comm, Finset.filter_union_filter_not_eq]

/-- All sides of the simplex but one, and one more facet, make a corner. -/
theorem isCorner_of_facetSet {bound i id : Nat} (hv : v.IsShaped p bound) (hi : i < p)
    (hid : p ≤ id) (hfacets : v.facetSet = insert id ((Finset.range p).erase i)) : v.isCorner := by
  have hboundary : v.facetSet.filter (· < p) = (Finset.range p).erase i := by
    rw [hfacets, Finset.filter_insert, if_neg (Nat.not_lt.2 hid), Finset.filter_true_of_mem]
    exact fun k hk => Finset.mem_range.1 (Finset.mem_of_mem_erase hk)
  rw [isCorner_iff hv, hboundary, Finset.card_erase_add_one (Finset.mem_range.2 hi),
    Finset.card_range]

end Vertex

section Cuts

variable {α : Type} [Scalar α] {m m' : Mesh α} {p : Nat} {log : FacetLog α}
  {f : Facet α} {r : Region}
  {n : NodeKey} {v : Vertex α}

/-- What a cut does to a vertex on a vertical edge: it stays as it is, or the new facet of a point
replaces the one that is not vertical, or its node is in the region of a ray and leaves. -/
theorem Cut.Leaves.of_vertical (h : Leaves m m' p (log.snoc f) log.size f r)
    (hm : m.IsSound p log.size) (hv : m.vertex? n = some v) (htop : v.hasVerticalEdge log) :
    (∃ u, m'.vertex? n = some u ∧ v.SameEdge log u (log.snoc f) ∧
      (u = v ∨ (f.kind = .point ∧
        u.facetSet = insert log.size (v.facetSet.filter (log.isVertical ·))))) ∨
      (¬ m'.graph.contains n ∧ n ∈ r.nodes ∧ f.kind ≠ .point) := by
  have hn := Mesh.contains_of_vertex? hv
  have hsame := Vertex.sameEdge_snoc (hm.isShaped hv) htop f
  by_cases hn' : m'.graph.contains n
  · obtain ⟨u, hu, -⟩ := h.sound.stored hn'
    refine .inl ⟨u, hu, ?_⟩
    cases h.source hu with
    | kept hold =>
      obtain rfl := Option.some.inj (hold.symm.trans hv)
      exact ⟨hsame, .inl rfl⟩
    | lowered hold hkind hw =>
      obtain rfl := Option.some.inj (hold.symm.trans hv)
      obtain ⟨hedge, hfacets⟩ := Vertex.sameEdge_descend (hm.isShaped hv) hkind hw
      exact ⟨hedge, .inr ⟨hkind, hfacets⟩⟩
    | split hnew => exact absurd hn hnew
  · obtain ⟨hr, hlowers⟩ := h.removed hn hn'
    exact .inr ⟨hn', hr, fun hkind => hlowers ⟨v, hv, hkind, hsame.tops⟩⟩

end Cuts

namespace Skeleton

variable {α : Type} [Scalar α] {s s' : Skeleton α} {f : Facet α} {seed n : NodeKey} {v : Vertex α}
  {make : List α → Except (Facet.Error α) (Facet α)} {values : List α} {tolerance : Tolerance α}
  {request : Request α} {objectives : Nat} {point : List α} {originating : Option Nat}
  {rays : List (List α)} {settings : Settings α}

/-- The cut by a point moves the vertices on vertical edges at most, whether it succeeds or
fails. -/
theorem IsSound.point_keeps (h : s.IsSound) (hf : f.IsReport s.objectives) (hkind : f.kind = .point)
    (hv : s.mesh.vertex? n = some v) (htop : v.hasVerticalEdge s.log) :
    let stays (s' : Skeleton α) := ∃ u, s'.mesh.vertex? n = some u ∧ u.weight = v.weight ∧
      (u = v ∨ u.facetSet = insert s.log.size (v.facetSet.filter (s.log.isVertical ·)))
    Ends (cut f seed) s (fun _ => stays) fun _ => stays := by
  have hstays {s' : Skeleton α} {r : Region} (hlog : s'.log = s.log.snoc f)
      (hleaves : Cut.Leaves s.mesh s'.mesh s.objectives s'.log s.log.size f r) :
      ∃ u, s'.mesh.vertex? n = some u ∧ u.weight = v.weight ∧
        (u = v ∨ u.facetSet = insert s.log.size (v.facetSet.filter (s.log.isVertical ·))) := by
    rw [hlog] at hleaves
    rcases hleaves.of_vertical h.mesh hv htop with ⟨u, hu, hedge, hmoved⟩ | ⟨-, -, hray⟩
    exacts [⟨u, hu, hedge.weight_eq, hmoved.imp_right And.right⟩, absurd hkind hray]
  refine (h.cut_leaves hf seed).mono (fun _ s' hs => ?_) fun _ s' hs => hstays hs.1 hs.2
  obtain ⟨hlog, r, -, hleaves⟩ := hs
  exact hstays hlog hleaves

def RayRemoves (s s' : Skeleton α) (n : NodeKey) : Prop :=
  ∃ f seed r, f.IsReport s.objectives ∧ f.kind = .ray ∧ s.cut f seed = .ok () s' ∧
    s.mesh.violatedRegion f seed = .ok r ∧ n ∈ r.nodes

theorem IsSound.step_of_vertical (h : s.IsSound) (hstep : Step s s')
    (hv : s.mesh.vertex? n = some v) (htop : v.hasVerticalEdge s.log) :
    (∃ u, s'.mesh.vertex? n = some u ∧ v.SameEdge s.log u s'.log) ∨
      (¬ s'.mesh.graph.contains n ∧ s.RayRemoves s' n) := by
  cases hstep with
  | take => exact .inl ⟨v, (s.mesh.vertex?_takeUntested n).trans hv, .refl htop⟩
  | note => exact .inl ⟨v, hv, .refl htop⟩
  | @cut _ f seed report _ done =>
    obtain ⟨hlog, r, hregion, hleaves⟩ := (h.cut_leaves report seed).of_ok done
    rw [hlog] at hleaves ⊢
    rcases hleaves.of_vertical h.mesh hv htop with ⟨u, hu, hedge, -⟩ | ⟨hgone, hr, hkind⟩
    · exact .inl ⟨u, hu, hedge⟩
    · exact .inr ⟨hgone, f, seed, r, report, report.kind.resolve_left hkind, done, hregion, hr⟩
  | @failedCut _ f seed _ report _ failed =>
    obtain ⟨hlog, hleaves⟩ := (h.cut_leaves report seed).of_error failed
    rw [hlog] at hleaves ⊢
    rcases hleaves.of_vertical h.mesh hv htop with ⟨u, hu, hedge, -⟩ | ⟨-, hr, -⟩
    · exact .inl ⟨u, hu, hedge⟩
    · exact absurd hr List.not_mem_nil

/-- Along a run, a vertex stays on its vertical edge up to the ray that removes its node for
good. -/
theorem IsSound.reaches_of_vertical (h : s.IsSound) (hsteps : ReflTransGen Step s s')
    (hv : s.mesh.vertex? n = some v) (htop : v.hasVerticalEdge s.log) :
    (∃ u, s'.mesh.vertex? n = some u ∧ v.SameEdge s.log u s'.log) ∨
      (¬ s'.mesh.graph.contains n ∧ ∃ t t', ReflTransGen Step s t ∧ t.RayRemoves t' n ∧
        ReflTransGen Step t' s') := by
  induction hsteps with
  | refl => exact .inl ⟨v, hv, .refl htop⟩
  | @tail t t' hsteps hstep ih =>
    rcases ih with ⟨u, hu, hedge⟩ | ⟨hgone, x, x', hx, hremoves, hx'⟩
    · have ht := (h.reaches hsteps).1
      rcases ht.step_of_vertical hstep hu hedge.tops with ⟨w, hw, hedge'⟩ | ⟨hgone, hremoves⟩
      · exact .inl ⟨w, hw, hedge.trans hedge'⟩
      · exact .inr ⟨hgone, t, t', hsteps, hremoves, .refl⟩
    · have hissued := (precedes_of_reaches hsteps).issued
        (Arena.issued_of_contains (Mesh.contains_of_vertex? hv))
      exact .inr ⟨fun hc => hgone (hstep.precedes.contains hc hissued), x, x', hx, hremoves,
        hx'.tail hstep⟩

def Accepts (s : Skeleton α) (request : Request α) : Prop :=
  (s.respond request).1.isOk ∧ (s.respond request).2.log ≠ s.log

def RejectsRays (s : Skeleton α) : List (List α) → Prop
  | [] => True
  | ray :: rays => ¬ s.Accepts (.rayAnywhere ray) ∧
    ((s.respond (.rayAnywhere ray)).1.isOk → RejectsRays (s.respond (.rayAnywhere ray)).2 rays)

def AcceptsNoRay (s : Skeleton α) : Request α → Prop
  | .nextWeight | .point _ | .pointAnywhere _ => True
  | .ray direction => ¬ s.Accepts (.ray direction)
  | .rayAnywhere direction => ¬ s.Accepts (.rayAnywhere direction)
  | .rays directions => s.RejectsRays directions

def NeverAcceptsRay (s : Skeleton α) : List (Request α) → Prop
  | [] => True
  | request :: requests => s.AcceptsNoRay request ∧ NeverAcceptsRay (s.respond request).2 requests

def Anchors (s s' : Skeleton α) : Prop :=
  ∀ n v, s.mesh.vertex? n = some v → v.hasVerticalEdge s.log →
    ∃ u, s'.mesh.vertex? n = some u ∧ v.SameEdge s.log u s'.log

omit [Scalar α] in
theorem Anchors.refl (s : Skeleton α) : s.Anchors s := fun _ v hv htop => ⟨v, hv, .refl htop⟩

omit [Scalar α] in
theorem Anchors.trans {t : Skeleton α} (h : s.Anchors s') (h' : s'.Anchors t) : s.Anchors t := by
  intro n v hv htop
  obtain ⟨u, hu, hedge⟩ := h n v hv htop
  obtain ⟨w, hw, hedge'⟩ := h' n u hu hedge.tops
  exact ⟨w, hw, hedge.trans hedge'⟩

/-- A cut keeps all vertices on vertical edges, if by a ray it has no region. -/
theorem IsSound.anchors_of_leaves {r : Region} (h : s.IsSound) (hlog : s'.log = s.log.snoc f)
    (hleaves : Cut.Leaves s.mesh s'.mesh s.objectives s'.log s.log.size f r)
    (hr : ∀ n ∈ r.nodes, f.kind = .point) : s.Anchors s' := by
  intro n v hv htop
  rw [hlog] at hleaves ⊢
  rcases hleaves.of_vertical h.mesh hv htop with ⟨u, hu, hedge, -⟩ | ⟨-, hn, hkind⟩
  exacts [⟨u, hu, hedge⟩, absurd (hr n hn) hkind]

theorem IsSound.anchors_report (h : s.IsSound) (hreport : request.report? = some (make, values))
    (hrequest : make = Facet.ofPoint ∨ ¬ s.Accepts request) : s.Anchors (s.respond request).2 := by
  obtain ⟨tolerance, hsuits, hends⟩ := perform_ends (s := s) hreport
  unfold Accepts at hrequest
  unfold respond at hrequest ⊢
  cases hperform : request.perform s with
  | ok response s' =>
    simp only [hperform] at hrequest ⊢
    obtain ⟨Candidate, b, f, hlength, hf, htries⟩ := hends.of_ok hperform
    cases b with
    | false =>
      obtain ⟨-, rfl⟩ := htries
      exact .refl s
    | true =>
      obtain ⟨seed, -, -, hcut⟩ := htries
      obtain ⟨hlog, r, -, hleaves⟩ := (h.cut_leaves (hsuits.isReport hlength hf).1 seed).of_ok hcut
      refine h.anchors_of_leaves hlog hleaves fun n _ => ?_
      rcases hrequest with rfl | hrejected
      · exact Facet.kind_of_ofPoint hf
      · exact absurd ⟨rfl, hlog ▸ FacetLog.snoc_ne⟩ hrejected
  | error e s' =>
    rcases hends.of_error hperform with ⟨rfl, -⟩ | ⟨f, hlength, hf, seed, -, hcut⟩
    · exact .refl s'
    · obtain ⟨hlog, hleaves⟩ :=
        (h.cut_leaves (hsuits.isReport hlength hf).1 seed).of_error hcut
      exact h.anchors_of_leaves hlog hleaves (by simp)

theorem IsSound.anchors_rays (h : s.IsSound) (rays : List (List α)) (total : CutStats)
    (applied : Nat) (hrejects : s.RejectsRays rays) : Ends (reportRaysFrom total applied rays) s
      (fun _ => s.Anchors) fun _ => s.Anchors := by
  induction rays generalizing s total applied with
  | nil => exact .bind (.modify (.pure (Anchors.refl s)))
  | cons ray rays ih =>
    obtain ⟨hfirst, hrest⟩ := hrejects
    have hanchors : s.Anchors (s.respond (.rayAnywhere ray)).2 :=
      h.anchors_report rfl (.inr hfirst)
    refine .bind (.intro (fun b s' hray => ?_) fun e s' hray => ?_)
    · have hrespond := respond_rayAnywhere_of_ok hray
      have h' := (h.reaches ((reaches_reportRayAnywhere ray s).of_ok hray)).1
      rw [hrespond] at hrest hanchors
      exact .bind (.get ((ih h' _ _ (hrest rfl)).mono (fun _ _ => hanchors.trans)
        fun _ _ => hanchors.trans))
    · rwa [respond_rayAnywhere_of_error hray] at hanchors

theorem IsSound.anchors_respond (h : s.IsSound) (hno : s.AcceptsNoRay request) :
    s.Anchors (s.respond request).2 := by
  cases request with
  | nextWeight =>
    have htaken : s.Anchors s.taken := fun n v hv htop =>
      ⟨v, (s.mesh.vertex?_takeUntested n).trans hv, .refl htop⟩
    exact of_perform (P := s.Anchors)
      (.map ((nextWeight_ends s).mono (fun _ _ hs => hs.1 ▸ htaken) fun _ _ hs => hs.1 ▸ htaken))
  | point | pointAnywhere => exact h.anchors_report rfl (.inl rfl)
  | ray | rayAnywhere => exact h.anchors_report rfl (.inr hno)
  | rays directions =>
    exact of_perform (P := s.Anchors) (.map (h.anchors_rays directions .zero 0 hno))

theorem IsSound.anchors_after {requests : List (Request α)} (h : s.IsSound)
    (hno : s.NeverAcceptsRay requests) : s.Anchors (s.after requests) := by
  induction requests generalizing s with
  | nil => exact .refl s
  | cons request requests ih =>
    exact (h.anchors_respond hno.1).trans (ih (h.reaches (reaches_respond s request)).1 hno.2)

/-- The corners that a first point makes are all on vertical edges. -/
theorem exists_corners (h : start objectives point originating settings = .ok s) :
    ∃ nodes : List NodeKey, nodes.length = objectives ∧ nodes.Nodup ∧
      (∀ n, n ∈ nodes ↔ s.mesh.graph.contains n) ∧
      ∀ i n, nodes[i]? = some n → ∃ v, s.mesh.vertex? n = some v ∧ v.hasVerticalEdge s.log ∧
        v.weight = Facet.unitVector objectives i ∧
        v.facetSet.filter (s.log.isVertical ·) = (Finset.range objectives).erase i := by
  have hsound := isSound_of_start h
  obtain ⟨-, hlength, f, hf, rfl⟩ := start_eq_ok h
  subst hlength
  obtain ⟨nodes, origin, hclique⟩ := clique_cornerMesh point originating
  refine ⟨nodes, ?_, ?_, fun n => ⟨fun hn => Mesh.contains_of_vertex? (hclique.vertex?_eq hn),
    hclique.mem_of_contains⟩, fun i n hn => ?_⟩
  · rw [← length_cornersOver point originating, ← hclique.map_origin, List.length_map]
  · have hnodup := facetSet_cornersOver_nodup point originating
    rw [← hclique.map_origin, List.map_map] at hnodup
    exact hnodup.of_map
  · have horigin : (cornersOver point originating)[i]? = some (origin n) := by
      rw [← hclique.map_origin, List.getElem?_map, hn, Option.map_some]
    obtain ⟨value, hcorner⟩ := getElem?_cornersOver horigin
    have hi : i < point.length := by
      rw [← length_cornersOver point originating]
      exact (List.getElem?_eq_some_iff.1 horigin).1
    have hv := hclique.vertex?_eq (List.mem_of_getElem? hn)
    have hlast : ((FacetLog.ofSimplex point.length).snoc f).isVertical point.length = false := by
      rw [FacetLog.isVertical_of_get? (FacetLog.get?_ofSimplex_snoc _ f), Facet.isVertical,
        Facet.kind_of_ofPoint hf]
      rfl
    have hvertical := Vertex.filter_vertical_corner hsound.log hlast hcorner
    refine ⟨_, hv, ?_, ?_, hvertical⟩
    · rw [Vertex.hasVerticalEdge_iff (hsound.mesh.isShaped hv)]
      change ((origin n).1.facetSet.filter _).card + 1 = _
      rw [hvertical, Finset.card_erase_add_one (Finset.mem_range.2 hi), Finset.card_range]
    · rw [Vertex.corner?_eq_some hi, Option.some.injEq] at hcorner
      rw [← hcorner]

/-- Vertices on vertical edges are permanent under points. Whatever is asked of a skeleton, and
whatever fails or is rounded meanwhile, such a vertex keeps its weight and its vertical facets for
as long as its node lives. The cut by a point at most replaces the facet that remains by the new
one, and the node is only removed by a ray that has it in its region. As long as no ray was
accepted, those of the batch at the start included, all nodes of the first point are there: the
`i`-th is over the `i`-th corner of the simplex, on all its sides but the `i`-th and on the facet of
one point. -/
theorem vertical_edges_after_build
    (h : build objectives point originating rays settings = .ok s)
    (requests later : List (Request α)) :
    let t := s.after requests
    let t' := t.after later
    (∀ n v, t.mesh.vertex? n = some v → v.hasVerticalEdge t.log →
      (v.facetSet.filter (t.log.isVertical ·)).card + 1 = objectives ∧
      (∀ u, t'.mesh.vertex? n = some u → u.hasVerticalEdge t'.log ∧ u.weight = v.weight ∧
        u.facetSet.filter (t'.log.isVertical ·) = v.facetSet.filter (t.log.isVertical ·)) ∧
      (∀ f seed, f.IsReport objectives → f.kind = .point →
        let stays (t' : Skeleton α) := ∃ u, t'.mesh.vertex? n = some u ∧ u.weight = v.weight ∧
          (u = v ∨ u.facetSet = insert t.log.size (v.facetSet.filter (t.log.isVertical ·)))
        Ends (cut f seed) t (fun _ => stays) fun _ => stays) ∧
      (¬ t'.mesh.graph.contains n → ∃ x x', ReflTransGen Step t x ∧ x.RayRemoves x' n ∧
        ReflTransGen Step x' t')) ∧
    ∃ s₀, start objectives point originating settings = .ok s₀ ∧ (s₀.respond (.rays rays)).2 = s ∧
      (s₀.NeverAcceptsRay (.rays rays :: requests) → ∃ nodes : List NodeKey,
        nodes.length = objectives ∧ nodes.Nodup ∧ (∀ n, n ∈ nodes ↔ s₀.mesh.graph.contains n) ∧
        ∀ i n, nodes[i]? = some n → ∃ v id f, t.mesh.vertex? n = some v ∧
          v.weight = Facet.unitVector objectives i ∧
          v.facetSet = insert id ((Finset.range objectives).erase i) ∧ objectives ≤ id ∧
          t.log.get? id = some f ∧ f.kind = .point ∧ v.isCorner) := by
  intro t t'
  obtain ⟨ht, hobj, -⟩ := isSound_after h requests
  refine ⟨fun n v hv htop => ?_, ?_⟩
  · have hcases := ht.reaches_of_vertical (reaches_after t later) hv htop
    refine ⟨(Vertex.hasVerticalEdge_iff (hobj ▸ ht.mesh.isShaped hv)).1 htop, fun u hu => ?_,
      fun f seed hf hkind => ht.point_keeps (hobj ▸ hf) hkind hv htop, fun hgone => ?_⟩
    · rcases hcases with ⟨u', hu', hedge⟩ | ⟨hgone, -⟩
      · obtain rfl := Option.some.inj (hu'.symm.trans hu)
        exact ⟨hedge.tops, hedge.weight_eq, hedge.vertical_eq⟩
      · exact absurd (Mesh.contains_of_vertex? hu) hgone
    · rcases hcases with ⟨u, hu, -⟩ | ⟨-, hremoved⟩
      exacts [absurd (Mesh.contains_of_vertex? hu) hgone, hremoved]
  · obtain ⟨s₀, applied, hstart, hbatch, hafter⟩ := build_eq_respond h
    refine ⟨s₀, hstart, by rw [hbatch], fun hno => ?_⟩
    obtain ⟨nodes, hlength, hnodup, hmem, hcorners⟩ := exists_corners hstart
    refine ⟨nodes, hlength, hnodup, hmem, fun i n hn => ?_⟩
    have hi : i < objectives := hlength ▸ (List.getElem?_eq_some_iff.1 hn).1
    obtain ⟨v, hv, htop, hweight, hvertical⟩ := hcorners i n hn
    obtain ⟨u, hu, hedge⟩ := (isSound_of_start hstart).anchors_after hno n v hv htop
    rw [← hafter] at hu hedge
    have hshape := hobj ▸ ht.mesh.isShaped hu
    obtain ⟨id, f, hf, hkind, hfacets⟩ := Vertex.exists_remaining hshape hedge.tops
    rw [hedge.vertical_eq, hvertical] at hfacets
    have hid : objectives ≤ id := by
      by_contra hlt
      have hboundary := ((hobj ▸ ht.log).isVertical_of_lt (Nat.not_le.1 hlt))
      rw [FacetLog.isVertical_of_get? hf] at hboundary
      simp [Facet.isVertical, hkind] at hboundary
    exact ⟨u, id, f, hu, hedge.weight_eq.trans hweight, hfacets, hid, hf, hkind,
      Vertex.isCorner_of_facetSet hshape hi hid hfacets⟩

/-- Here a ray is rejected first, and the second one removes the other corner. -/
theorem vertical_edges_after_two_rays : ∃ s s₀ : Skeleton Float,
    build 2 [3, 5] none [] .standard = .ok s ∧ start 2 [3, 5] none .standard = .ok s₀ ∧
      s₀.NeverAcceptsRay [.rays [], .nextWeight, .point [1, 8], .rayAnywhere [1, 1]] ∧
      let t := s.after [.nextWeight, .point [1, 8], .rayAnywhere [1, 1]]
      let t' := t.after [.rayAnywhere [1, -3]]
      (∃ nodes : List NodeKey, nodes.length = 2 ∧ ∀ i n, nodes[i]? = some n →
        ∃ v, t.mesh.vertex? n = some v ∧ v.weight = Facet.unitVector 2 i ∧ v.isCorner) ∧
      (∃ v u, t.mesh.vertex? ⟨0, 0⟩ = some v ∧ v.hasVerticalEdge t.log ∧
        t'.mesh.vertex? ⟨0, 0⟩ = some u ∧ u.weight = v.weight) ∧
      ∃ v, t.mesh.vertex? ⟨1, 0⟩ = some v ∧ v.hasVerticalEdge t.log ∧
        ¬ t'.mesh.graph.contains ⟨1, 0⟩ ∧ ∃ x x' : Skeleton Float, x.RayRemoves x' ⟨1, 0⟩ := by
  have hrun : (build (α := Float) 2 [3, 5] none [] .standard).toOption.any fun s =>
      let t := s.after [.nextWeight, .point [1, 8], .rayAnywhere [1, 1]]
      let t' := t.after [.rayAnywhere [1, -3]]
      ((s.after [.nextWeight, .point [1, 8]]).respond (.rayAnywhere [1, 1])).2.log ==
        (s.after [.nextWeight, .point [1, 8]]).log &&
      t.mesh.located.any (fun e => e.1 == ⟨0, 0⟩ && e.2.hasVerticalEdge t.log) &&
      t.mesh.located.any (fun e => e.1 == ⟨1, 0⟩ && e.2.hasVerticalEdge t.log) &&
      t'.mesh.graph.contains ⟨0, 0⟩ && !t'.mesh.graph.contains ⟨1, 0⟩ := by
    decide +kernel
  obtain ⟨s, hs, hrun⟩ := exists_ok_of_any hrun
  simp only [Bool.and_eq_true, beq_iff_eq, List.any_eq_true, Prod.exists, Mesh.mem_located,
    Bool.not_eq_true'] at hrun
  obtain ⟨⟨⟨⟨hrejected, n₀, v₀, hfirst, rfl, htop⟩, n₁, v₁, hsecond, rfl, htop'⟩, hstays⟩, hgone⟩ :=
    hrun
  obtain ⟨hedges, s₀, hstart, hbatch, hcorners⟩ :=
    vertical_edges_after_build hs [.nextWeight, .point [1, 8], .rayAnywhere [1, 1]]
      [.rayAnywhere [1, -3]]
  have hnever : s₀.NeverAcceptsRay [.rays [], .nextWeight, .point [1, 8], .rayAnywhere [1, 1]] := by
    refine ⟨trivial, trivial, trivial, fun haccepts => ?_, trivial⟩
    rw [hbatch] at haccepts
    exact haccepts.2 hrejected
  refine ⟨s, s₀, hs, hstart, hnever, ?_, ?_, ?_⟩
  · obtain ⟨nodes, hlength, -, -, hnodes⟩ := hcorners hnever
    refine ⟨nodes, hlength, fun i n hn => ?_⟩
    obtain ⟨v, id, f, hv, hweight, -, -, -, -, hcorner⟩ := hnodes i n hn
    exact ⟨v, hv, hweight, hcorner⟩
  · have ht' := (isSound_after hs [.nextWeight, .point [1, 8], .rayAnywhere [1, 1],
      .rayAnywhere [1, -3]]).1
    obtain ⟨u, hu, -⟩ := ht'.mesh.stored hstays
    exact ⟨v₀, u, hfirst, htop, hu, ((hedges _ _ hfirst htop).2.1 u hu).2.1⟩
  · have hgone : ¬ ((s.after [.nextWeight, .point [1, 8], .rayAnywhere [1, 1]]).after
        [.rayAnywhere [1, -3]]).mesh.graph.contains ⟨1, 0⟩ := by simp [hgone]
    obtain ⟨x, x', -, hremoves, -⟩ := (hedges _ _ hsecond htop').2.2.2 hgone
    exact ⟨v₁, hsecond, htop', hgone, x, x', hremoves⟩

end Skeleton

end WeightPolyhedron
