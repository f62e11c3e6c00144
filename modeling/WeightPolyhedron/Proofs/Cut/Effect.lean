import WeightPolyhedron.Proofs.Cut.Change
import WeightPolyhedron.Proofs.Cut.Join
import WeightPolyhedron.Proofs.Log

/-!
What a cut does to a sound mesh as a whole: which nodes there are afterwards, where their vertices
come from, which of them are joined, and which are marked. A cut that fails leaves a sound mesh too,
and only fails for want of a seed, at a cut edge that is not separated, or at a vertex that cannot
descend.
-/

namespace WeightPolyhedron

variable {α : Type} [Scalar α] {m m' : Mesh α} {p : Nat} {id : FacetId} {f : Facet α}
  {log : FacetLog α} {r : Region} {created : List NodeKey} {origin : NodeKey → NodeKey × NodeKey}
  {n k u seed : NodeKey}

namespace Cut

def Fresh (m : Mesh α) (log : FacetLog α) (f : Facet α) (r : Region) (created : List NodeKey)
    (n : NodeKey) : Prop :=
  n ∈ created ∨ (n ∈ r.nodes ∧ m.Lowers log f n)

/-- The mesh after a cut, compared with the mesh before. The origin of a new node is its cut
edge. -/
structure Effect (m m' : Mesh α) (p : Nat) (log : FacetLog α) (id : FacetId) (f : Facet α)
    (r : Region) (created : List NodeKey) (origin : NodeKey → NodeKey × NodeKey) : Prop where
  sound : m'.IsSound p (id + 1)
  map_origin : created.map origin = r.cutEdges
  created_new : ∀ {n}, n ∈ created → ¬ m.graph.contains n
  created_vertex : ∀ {n}, n ∈ created → ∃ a b w, m.vertex? (origin n).1 = some a ∧
    m.vertex? (origin n).2 = some b ∧ a.onEdge b id f = .ok w ∧
    m'.vertex? n = some { w with node := some n }
  lowered_vertex : ∀ {n}, n ∈ r.nodes → m.Lowers log f n → ∃ v w, m.vertex? n = some v ∧
    v.descend id f log = .ok w ∧ m'.vertex? n = some w
  removed : ∀ {n}, n ∈ r.nodes → ¬ m.Lowers log f n → m'.vertex? n = none
  kept : ∀ {n}, n ∉ r.nodes → n ∉ created → m'.vertex? n = m.vertex? n
  mem_neighbors : ∀ {k u}, u ∈ m'.graph.neighbors k ↔
    (u ∈ m.graph.neighbors k ∧ k ∉ r.nodes ∧ u ∉ r.nodes) ∨
    (k ∈ created ∧ u = (origin k).2) ∨ (u ∈ created ∧ k = (origin u).2) ∨
    (Fresh m log f r created k ∧ Fresh m log f r created u ∧
      ∃ a b, m'.vertex? k = some a ∧ m'.vertex? u = some b ∧ a.isNeighbour b)
  mem_untested : ∀ {k}, k ∈ m'.graph.untested ↔ (k ∈ m.graph.untested ∧ k ∉ r.nodes) ∨
    k ∈ created ∨ ((k ∈ r.nodes ∧ m.Lowers log f k) ∧ m.graph.lastTaken ≠ some k)
  lastTaken_iff : ∀ {k}, m'.graph.lastTaken = some k ↔
    m.graph.lastTaken = some k ∧ ¬ (k ∈ r.nodes ∧ ¬ m.Lowers log f k)

/-- A mesh that a failed cut leaves: some edges of the other one were split, and then some of its
nodes settled. -/
def Halted (m m' : Mesh α) (p : Nat) (log : FacetLog α) (id : FacetId) (f : Facet α) : Prop :=
  ∃ unmarked edges created origin s nodes fates,
    Split (m.unmark unmarked) s p id f edges created origin ∧
      Settled s m' p log id f nodes fates ∧ ∀ n ∈ nodes, m.graph.contains n

def Obstructed (m : Mesh α) (log : FacetLog α) (id : FacetId) (f : Facet α)
    (seed : NodeKey) : Prop :=
  ¬ m.graph.contains seed ∨ ∃ r, m.violatedRegion f seed = .ok r ∧
    ((∃ e ∈ r.cutEdges, ¬ m.Separates f e) ∨ ∃ n ∈ r.nodes, m.Hangs log id f n)

/-- A cut from a violated node meets no obstacle if the facet is comparable with zero at every
vertex. -/
theorem not_obstructed (hm : m.IsSound p id) (hf : f.IsReport p) (hseed : m.ViolatedAt f seed)
    (hone : ((-1 : α) == 0) = false)
    (hvalues : ∀ n v, m.vertex? n = some v → v.facetValue f < 0 ∨ 0 ≤ v.facetValue f) :
    ¬ Obstructed m log id f seed := by
  intro hobstructed
  rcases hobstructed with hmissing | ⟨r, hregion, ⟨⟨a, b⟩, he, hsep⟩ | ⟨n, hn, hhangs⟩⟩
  · obtain ⟨v, hv, -⟩ := hseed
    exact hmissing (Mesh.contains_of_vertex? hv)
  · have hr := Mesh.isAround_of_violatedRegion hregion
    refine hsep fun v w hv hw => ⟨?_, ?_⟩
    · have hviolated : m.ViolatedAt f a := by
        rcases hr.violated (hr.mem_cutEdges.1 he).1.1 with rfl | ha
        exacts [hseed, ha]
      simpa [Mesh.violatedAt_iff hv, Facet.violates] using hviolated
    · have hsurvives := hr.survives he
      rw [Mesh.violatedAt_iff hw] at hsurvives
      exact (hvalues b w hw).resolve_left (by simpa [Facet.violates] using hsurvives)
  · obtain ⟨v, e, hv, hkind, hvert, herror⟩ := hhangs
    have htight : f.tightValue? v.weight = some (-f.evaluate v.weight 0 / f.valueCoefficient) := by
      simp [Facet.tightValue?, hf.valueCoefficient_eq, Facet.isVertical, hkind, hone]
    obtain ⟨w, hw⟩ := Vertex.exists_descend id (hm.isShaped hv) hvert htight
    rw [hw] at herror
    cases herror

/-- The four phases of a cut, each from the mesh that the one before it leaves. -/
structure Phases (m s₁ s₂ s₃ m' : Mesh α) (p : Nat) (log : FacetLog α) (id : FacetId) (f : Facet α)
    (seed : NodeKey) (r : Region) (created : List NodeKey) (origin : NodeKey → NodeKey × NodeKey)
    (fates : List Fate) : Prop where
  sound : m.IsSound p id
  around : r.IsAround m f seed
  split : Split (m.unmark r.nodes) s₁ p id f r.cutEdges created origin
  settled : Settled s₁ s₂ p log id f r.nodes fates
  joined : Mesh.Joined s₂ s₃ p (id + 1) fun k u =>
    k ∈ created ++ fates.filterMap (·.staying?) ∧ u ∈ created ++ fates.filterMap (·.staying?) ∧
      ∃ a b, s₂.vertex? k = some a ∧ s₂.vertex? u = some b ∧ a.isNeighbour b
  discarded : Mesh.Discarded s₃ m' p (id + 1) (fates.filterMap (·.leaving?))

namespace Phases

variable {s₁ s₂ s₃ : Mesh α} {fates : List Fate}
  (h : Phases m s₁ s₂ s₃ m' p log id f seed r created origin fates)

include h

theorem created_new (hn : n ∈ created) : ¬ m.graph.contains n := by
  simpa using h.split.created_new hn

theorem notMem_created (hn : n ∈ r.nodes) : n ∉ created :=
  fun hc => h.created_new hc (h.around.contains hn)

theorem vertex?_split (hn : n ∉ created) : s₁.vertex? n = m.vertex? n := by
  rw [h.split.vertex?_eq hn, Mesh.vertex?_unmark]

theorem lowers_iff : (n ∈ r.nodes ∧ s₁.Lowers log f n) ↔ (n ∈ r.nodes ∧ m.Lowers log f n) := by
  apply and_congr_right
  intro hn
  simp only [Mesh.Lowers, h.vertex?_split (h.notMem_created hn)]

theorem mem_leaving : n ∈ fates.filterMap (·.leaving?) ↔ n ∈ r.nodes ∧ ¬ m.Lowers log f n := by
  rw [h.settled.mem_leaving]
  have hlowers : (n ∈ r.nodes ∧ s₁.Lowers log f n) ↔ (n ∈ r.nodes ∧ m.Lowers log f n) :=
    h.lowers_iff
  tauto

theorem mem_fresh : n ∈ created ++ fates.filterMap (·.staying?) ↔ Fresh m log f r created n := by
  rw [List.mem_append, h.settled.mem_staying, h.lowers_iff, Fresh]

theorem fresh_stays (hn : Fresh m log f r created n) : n ∉ fates.filterMap (·.leaving?) := by
  rw [h.mem_leaving]
  intro hc
  rcases hn with hn | hn
  · exact h.notMem_created hc.1 hn
  · exact hc.2 hn.2

theorem vertex?_eq (hn : n ∉ fates.filterMap (·.leaving?)) : m'.vertex? n = s₂.vertex? n := by
  rw [h.discarded.vertex?_eq, if_neg hn, h.joined.vertex?_eq]

theorem origin_survives (hn : n ∈ created) : (origin n).2 ∉ r.nodes := by
  have hedge : origin n ∈ r.cutEdges := h.split.map_origin ▸ List.mem_map_of_mem hn
  exact (h.around.mem_cutEdges.1 hedge).2

theorem created_vertex (hn : n ∈ created) : ∃ a b w, m.vertex? (origin n).1 = some a ∧
      m.vertex? (origin n).2 = some b ∧ a.onEdge b id f = .ok w ∧
      m'.vertex? n = some { w with node := some n } := by
  obtain ⟨a, b, w, ha, hb, hw, hv⟩ := h.split.created_vertex hn
  rw [Mesh.vertex?_unmark] at ha hb
  refine ⟨a, b, w, ha, hb, hw, ?_⟩
  rw [h.vertex?_eq (h.fresh_stays (.inl hn)),
    h.settled.vertex?_eq fun hc => h.notMem_created hc.1 hn, hv]

theorem lowered_vertex (hn : n ∈ r.nodes) (hl : m.Lowers log f n) : ∃ v w, m.vertex? n = some v ∧
      v.descend id f log = .ok w ∧ m'.vertex? n = some w := by
  obtain ⟨v, w, hv, hw, hs⟩ := h.settled.lowered_vertex hn (h.lowers_iff.2 ⟨hn, hl⟩).2
  rw [h.vertex?_split (h.notMem_created hn)] at hv
  exact ⟨v, w, hv, hw, (h.vertex?_eq (h.fresh_stays (.inr ⟨hn, hl⟩))).trans hs⟩

theorem kept (hn : n ∉ r.nodes) (hc : n ∉ created) : m'.vertex? n = m.vertex? n := by
  rw [h.vertex?_eq fun hl => hn (h.mem_leaving.1 hl).1, h.settled.vertex?_eq fun hl => hn hl.1,
    h.vertex?_split hc]

theorem mem_neighbors :
    u ∈ m'.graph.neighbors k ↔
      (u ∈ m.graph.neighbors k ∧ k ∉ r.nodes ∧ u ∉ r.nodes) ∨
      (k ∈ created ∧ u = (origin k).2) ∨ (u ∈ created ∧ k = (origin u).2) ∨
      (Fresh m log f r created k ∧ Fresh m log f r created u ∧
        ∃ a b, m'.vertex? k = some a ∧ m'.vertex? u = some b ∧ a.isNeighbour b) := by
  rw [h.discarded.mem_neighbors, h.joined.mem_neighbors, h.settled.mem_neighbors,
    h.split.mem_neighbors, Mesh.neighbors_unmark, h.mem_fresh, h.mem_fresh, h.lowers_iff,
    h.lowers_iff, h.mem_leaving, h.mem_leaving]
  constructor
  · intro hs
    obtain ⟨hedge, hk, hu⟩ := hs
    rcases hedge with ⟨hedge | hedge | hedge, hk', hu'⟩ | ⟨hkf, huf, a, b, ha, hb, hab⟩
    · refine .inl ⟨hedge, ?_, ?_⟩ <;> tauto
    · exact .inr (.inl hedge)
    · exact .inr (.inr (.inl hedge))
    · rw [← h.vertex?_eq (h.fresh_stays hkf)] at ha
      rw [← h.vertex?_eq (h.fresh_stays huf)] at hb
      exact .inr (.inr (.inr ⟨hkf, huf, a, b, ha, hb, hab⟩))
  · intro hedge
    rcases hedge with hedge | ⟨hk, hu⟩ | ⟨hu, hk⟩ | ⟨hkf, huf, a, b, ha, hb, hab⟩
    · exact ⟨.inl ⟨.inl hedge.1, fun hc => hedge.2.1 hc.1, fun hc => hedge.2.2 hc.1⟩,
        fun hc => hedge.2.1 hc.1, fun hc => hedge.2.2 hc.1⟩
    · have hk' := fun hc => h.notMem_created hc hk
      have hu' : u ∉ r.nodes := hu ▸ h.origin_survives hk
      exact ⟨.inl ⟨.inr (.inl ⟨hk, hu⟩), fun hc => hk' hc.1, fun hc => hu' hc.1⟩,
        fun hc => hk' hc.1, fun hc => hu' hc.1⟩
    · have hu' := fun hc => h.notMem_created hc hu
      have hk' : k ∉ r.nodes := hk ▸ h.origin_survives hu
      exact ⟨.inl ⟨.inr (.inr ⟨hu, hk⟩), fun hc => hk' hc.1, fun hc => hu' hc.1⟩,
        fun hc => hk' hc.1, fun hc => hu' hc.1⟩
    · have hkl := h.fresh_stays hkf
      have hul := h.fresh_stays huf
      rw [h.vertex?_eq hkl] at ha
      rw [h.vertex?_eq hul] at hb
      rw [h.mem_leaving] at hkl hul
      exact ⟨.inr ⟨hkf, huf, a, b, ha, hb, hab⟩, hkl, hul⟩

theorem mem_untested :
    k ∈ m'.graph.untested ↔ (k ∈ m.graph.untested ∧ k ∉ r.nodes) ∨
      k ∈ created ∨ ((k ∈ r.nodes ∧ m.Lowers log f k) ∧ m.graph.lastTaken ≠ some k) := by
  rw [h.discarded.mem_untested, h.joined.untested_eq, h.settled.mem_untested, h.split.mem_untested,
    h.sound.mem_untested_unmark, h.lowers_iff, h.mem_leaving, h.split.lastTaken_eq,
    Mesh.unmark_lastTaken]
  constructor
  · intro hk
    rcases hk with ⟨(hk | hk) | hk, -⟩
    exacts [.inl hk, .inr (.inl hk), .inr (.inr hk)]
  · intro hk
    rcases hk with hk | hk | hk
    · exact ⟨.inl (.inl hk), fun hc => hk.2 hc.1⟩
    · exact ⟨.inl (.inr hk), fun hc => h.notMem_created hc.1 hk⟩
    · exact ⟨.inr hk, fun hc => hc.2 hk.1.2⟩

theorem lastTaken_iff :
    m'.graph.lastTaken = some k ↔
      m.graph.lastTaken = some k ∧ ¬ (k ∈ r.nodes ∧ ¬ m.Lowers log f k) := by
  rw [h.discarded.lastTaken_iff, h.joined.lastTaken_eq, h.settled.lastTaken_eq,
    h.split.lastTaken_eq, Mesh.unmark_lastTaken, h.mem_leaving]

/-- Nodes that are lowered were unmarked before, so that all but the one handed out last are
opened. -/
theorem countP_isOpened : fates.countP (·.isOpened) = m.loweredCount log f r.nodes := by
  rw [h.settled.countP_isOpened]
  · unfold Mesh.loweredCount
    refine List.countP_congr fun n hn => ?_
    have hlowers : (n ∈ r.nodes ∧ s₁.Lowers log f n) ↔ (n ∈ r.nodes ∧ m.Lowers log f n) :=
      h.lowers_iff
    simp only [hn, true_and] at hlowers
    simp only [decide_eq_true_eq, hlowers, h.split.lastTaken_eq, Mesh.unmark_lastTaken]
  · intro n hn
    rw [h.split.mem_untested, h.sound.mem_untested_unmark]
    exact fun hu => hu.elim (fun hu => hu.2 hn) (h.notMem_created hn)

theorem length_created : created.length = r.cutEdges.length := by
  rw [← h.split.map_origin, List.length_map]

theorem effect :
    Effect m m' p log id f r created origin where
  sound := h.discarded.sound
  map_origin := h.split.map_origin
  created_new := h.created_new
  created_vertex := h.created_vertex
  lowered_vertex := h.lowered_vertex
  removed hn hl := by rw [h.discarded.vertex?_eq, if_pos (h.mem_leaving.2 ⟨hn, hl⟩)]
  kept := h.kept
  mem_neighbors := h.mem_neighbors
  mem_untested := h.mem_untested
  lastTaken_iff := h.lastTaken_iff

end Phases

/-- A node that is not marked after a cut is as it was, or it was handed out last and its vertex was
lowered onto the facet. -/
theorem Effect.of_unmarked (h : Effect m m' p log id f r created origin) {v : Vertex α}
    (hv : m'.vertex? n = some v) (hn : n ∉ m'.graph.untested) :
    (n ∉ r.nodes ∧ m.vertex? n = some v ∧ n ∉ m.graph.untested) ∨
      (m.graph.lastTaken = some n ∧ f.kind = .point ∧
        ∃ u, m.vertex? n = some u ∧ u.descend id f log = .ok v) := by
  rw [h.mem_untested] at hn
  push Not at hn
  obtain ⟨hold, hc, hopened⟩ := hn
  by_cases hr : n ∈ r.nodes
  · by_cases hl : m.Lowers log f n
    · obtain ⟨u, w, hu, hw, hs⟩ := h.lowered_vertex hr hl
      obtain rfl := Option.some.inj (hs.symm.trans hv)
      have hlast := hopened ⟨hr, hl⟩
      obtain ⟨-, -, hkind, -⟩ := hl
      exact .inr ⟨hlast, hkind, u, hu, hw⟩
    · rw [h.removed hr hl] at hv
      cases hv
  · exact .inl ⟨hr, h.kept hr hc ▸ hv, fun hc' => hr (hold hc')⟩

/-- A node that was there and is there after a cut is as it was, or its vertex was lowered. -/
theorem Effect.kept_or_lowered (h : Effect m m' p log id f r created origin)
    (hn : m.graph.contains n) (hn' : m'.graph.contains n) :
    (n ∉ r.nodes ∧ n ∉ created ∧ m'.vertex? n = m.vertex? n) ∨
      (n ∈ r.nodes ∧ m.Lowers log f n) := by
  have hold : n ∉ created := fun hc => h.created_new hc hn
  by_cases hr : n ∈ r.nodes
  · by_cases hl : m.Lowers log f n
    · exact .inr ⟨hr, hl⟩
    · obtain ⟨v, hv⟩ := h.sound.contains_iff_vertex?.1 hn'
      rw [h.removed hr hl] at hv
      cases hv
  · exact .inl ⟨hr, hold, h.kept hr hold⟩

theorem Effect.created_of_contains (h : Effect m m' p log id f r created origin)
    (hn : ¬ m.graph.contains n) (hn' : m'.graph.contains n) : n ∈ created := by
  by_contra hc
  obtain ⟨v, hv⟩ := h.sound.contains_iff_vertex?.1 hn'
  have hr : n ∉ r.nodes := by
    intro hr
    by_cases hl : m.Lowers log f n
    · obtain ⟨v, hv, -⟩ := hl
      exact hn (Mesh.contains_of_vertex? hv)
    · rw [h.removed hr hl] at hv
      cases hv
  rw [h.kept hr hc] at hv
  exact hn (Mesh.contains_of_vertex? hv)

/-- The nodes after a cut are the surviving ones and the fresh ones. -/
theorem Effect.contains_iff (h : Effect m m' p log id f r created origin) (hm : m.IsSound p id) :
    m'.graph.contains n ↔ (m.graph.contains n ∧ n ∉ r.nodes) ∨ Fresh m log f r created n := by
  constructor
  · intro hn'
    by_cases hn : m.graph.contains n
    · rcases h.kept_or_lowered hn hn' with ⟨hr, -, -⟩ | hlowered
      exacts [.inl ⟨hn, hr⟩, .inr (.inr hlowered)]
    · exact .inr (.inl (h.created_of_contains hn hn'))
  · rintro (⟨hn, hr⟩ | hn | ⟨hr, hl⟩)
    · obtain ⟨v, hv, -⟩ := hm.stored hn
      exact Mesh.contains_of_vertex? ((h.kept hr fun hc => h.created_new hc hn).trans hv)
    · obtain ⟨_, _, w, -, -, -, hv⟩ := h.created_vertex hn
      exact Mesh.contains_of_vertex? hv
    · obtain ⟨_, w, -, -, hv⟩ := h.lowered_vertex hr hl
      exact Mesh.contains_of_vertex? hv

/-- Each cut edge gets one new node. -/
theorem Effect.origin_inj (h : Effect m m' p log id f r created origin) (hnodup : r.cutEdges.Nodup)
    (hn : n ∈ created) (hk : k ∈ created) (heq : origin n = origin k) : n = k :=
  List.inj_on_of_nodup_map (h.map_origin.symm ▸ hnodup) hn hk heq

section Stages

variable {s₁ s₂ : Mesh α} {fates : List Fate} (hr : r.IsAround m f seed)
  (h₁ : Split (m.unmark r.nodes) s₁ p id f r.cutEdges created origin)

include hr h₁

/-- The split leaves the violated vertices as they are. -/
theorem Split.vertex?_of_mem (hn : n ∈ r.nodes) : s₁.vertex? n = m.vertex? n := by
  rw [h₁.vertex?_eq fun hc => h₁.created_new hc (by simpa using hr.contains hn),
    Mesh.vertex?_unmark]

theorem Split.exists_shaped (hm : m.IsSound p id) (hn : n ∈ r.nodes) :
    ∃ v, s₁.vertex? n = some v ∧ v.IsShaped p id := by
  obtain ⟨v, hv, -, hshape⟩ := hm.stored (hr.contains hn)
  exact ⟨v, (h₁.vertex?_of_mem hr hn).trans hv, hshape⟩

/-- All nodes that are to be compared have a vertex. -/
theorem Settled.exists_fresh (h₂ : Settled s₁ s₂ p log id f r.nodes fates)
    (hn : n ∈ created ++ fates.filterMap (·.staying?)) : ∃ v, s₂.vertex? n = some v := by
  rcases List.mem_append.1 hn with hn | hn
  · obtain ⟨_, _, w, -, -, -, hv⟩ := h₁.created_vertex hn
    refine ⟨_, (h₂.vertex?_eq fun hc => h₁.created_new hn ?_).trans hv⟩
    simpa using hr.contains hc.1
  · obtain ⟨hmem, hl⟩ := h₂.mem_staying.1 hn
    obtain ⟨_, w, -, -, hv⟩ := h₂.lowered_vertex hmem hl
    exact ⟨w, hv⟩

end Stages

/-- The phases of a cut of a sound mesh, and the statistics told at the end; before nodes are
discarded it only makes single changes. From a node of the graph, a cut only fails at a vertex that
cannot be derived. -/
theorem cut_phases (log : FacetLog α) (f : Facet α) (seed : NodeKey) (hm : m.IsSound p id)
    (retention : Retention) :
    Ends (Mesh.cut log id f seed retention) m
      (fun stats m' => ∃ r created origin s₁ s₂ s₃ fates, m.violatedRegion f seed = .ok r ∧
        Phases m s₁ s₂ s₃ m' p log id f seed r created origin fates ∧
        Relation.ReflTransGen Mesh.Change m s₃ ∧
        m' = (fates.filterMap (·.leaving?)).foldl (·.discard retention ·) s₃ ∧
        stats = ⟨.ofNat (created.length + fates.countP (·.isOpened)), .ofNat r.nodes.length⟩)
      (fun err m' => Halted m m' p log id f ∧ Obstructed m log id f seed ∧
        (m.graph.contains seed → ∃ cause, err = .vertex cause)) := by
  unfold Mesh.cut
  by_cases hseed : m.graph.contains seed
  swap
  · have herror : m.violatedRegion f seed = .error (.missingSeed seed) := by
      simp [Mesh.violatedRegion, hseed]
    have hhalted : Halted m m p log id f :=
      ⟨[], _, _, _, m, [], _, .nil hm, .nil (hm.mono (Nat.le_succ id)), by simp⟩
    refine .bind ?_
    simpa [Ends, Mesh.inspect, herror, hseed] using ⟨hhalted, .inl hseed⟩
  obtain ⟨r, hregion, hr⟩ := hm.violatedRegion_eq_ok f hseed
  have hfound : Ends (Mesh.inspect (·.violatedRegion f seed)) m (fun r' s => r' = r ∧ s = m)
      (fun err s => Halted m s p log id f ∧ Obstructed m log id f seed ∧
        (m.graph.contains seed → ∃ cause, err = .vertex cause)) := by
    simp [Ends, Mesh.inspect, hregion]
  apply hfound.andThen
  intro r' s hrs
  obtain ⟨rfl, rfl⟩ := hrs
  refine .bind (.modify ?_)
  have hedges : ∀ e ∈ r'.cutEdges, e.2 ∈ (s.unmark r'.nodes).graph.neighbors e.1 := by
    intro e he
    rw [Mesh.neighbors_unmark]
    exact (hr.mem_cutEdges.1 he).1.2
  refine .bind (((mapM_splitEdge_ends (hm.unmark r'.nodes) hedges).and
    (Mesh.Changes.mapM (Mesh.splitEdge_changes id f) _ _)).mono ?_ ?_)
  swap
  · intro _ s₁ hs
    obtain ⟨⟨⟨front, created, origin, h₁⟩, ⟨e, he, hsep⟩, hcause⟩, -⟩ := hs
    refine ⟨⟨_, _, _, _, _, [], _, h₁, .nil h₁.sound, by simp⟩,
      .inr ⟨r', hregion, .inl ⟨e, he, fun hc => hsep ?_⟩⟩, fun _ => hcause⟩
    simpa only [Mesh.Separates, Mesh.vertex?_unmark] using hc
  intro created s₁ hs
  obtain ⟨⟨origin, h₁⟩, hchanges₁⟩ := hs
  refine .bind (((mapM_settle_ends h₁.sound hr.nodup fun n => h₁.exists_shaped hr hm).and
    (Mesh.Changes.mapM (Mesh.settle_changes log id f) _ _)).mono ?_ ?_)
  swap
  · intro _ s₂ hs
    obtain ⟨⟨⟨front, fates, hfront, h₂⟩, ⟨n, hn, hhangs⟩, hcause⟩, -⟩ := hs
    refine ⟨⟨_, _, _, _, _, _, _, h₁, h₂, fun k hk => hr.contains (hfront k hk)⟩,
      .inr ⟨r', hregion, .inr ⟨n, hn, ?_⟩⟩, fun _ => hcause⟩
    simpa only [Mesh.Hangs, h₁.vertex?_of_mem hr hn] using hhangs
  intro fates s₂ hs
  obtain ⟨h₂, hchanges₂⟩ := hs
  apply (Mesh.mapM_vertexAt_ends fun n => h₂.exists_fresh hr h₁).andThen
  intro vs s hvs
  obtain ⟨rfl, hvs⟩ := hvs
  have h₃ := h₂.sound.joinPairs_adjacentPairs hvs
  have hchanges := (hchanges₁.head (.unmark _ _)).trans hchanges₂
  refine .bind (.modify (.bind (.modify (.pure ?_))))
  exact ⟨r', created, origin, s₁, s, _, fates, hregion,
    ⟨hm, hr, h₁, h₂, h₃, h₃.sound.discarded retention _⟩,
    hchanges.trans (Mesh.changes_joinPairs ..), rfl, rfl⟩

/-- What becomes of a sound mesh by a cut, whether it succeeds or not. -/
theorem cut_ends (log : FacetLog α) (f : Facet α) (seed : NodeKey) (hm : m.IsSound p id)
    (retention : Retention) :
    Ends (Mesh.cut log id f seed retention) m
      (fun _ m' => ∃ r created origin, m.violatedRegion f seed = .ok r ∧
        Effect m m' p log id f r created origin)
      (fun err m' => m'.IsSound p (id + 1) ∧ Obstructed m log id f seed ∧
        (m.graph.contains seed → ∃ cause, err = .vertex cause)) := by
  refine (cut_phases log f seed hm retention).mono (fun _ m' hs => ?_) fun _ m' hs => ?_
  · obtain ⟨r, created, origin, s₁, s₂, s₃, fates, hregion, hphases, -⟩ := hs
    exact ⟨r, created, origin, hregion, hphases.effect⟩
  · obtain ⟨⟨_, _, _, _, _, _, _, -, hsettled, -⟩, hs⟩ := hs
    exact ⟨hsettled.sound, hs⟩

end Cut

end WeightPolyhedron
