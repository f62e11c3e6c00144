import WeightPolyhedron.Proofs.Cut.Effect

/-!
The vertices that a mesh stores. Each belongs to the node that it names, or it is loose: it was
detached from a node that was discarded. Loose vertices stay as they are, and where vertices are
removed with their nodes there are none.
-/

namespace WeightPolyhedron

open Relation (ReflTransGen)

namespace Mesh

variable {α : Type} {m m' m'' : Mesh α} {retention : Retention} {n k : NodeKey} {key : VertexKey}
  {v w : Vertex α} {nodes : List NodeKey}

theorem get?_attach (m : Mesh α) (v : Vertex α) (b : Bool) (key : VertexKey) :
    (m.attach v b).2.vertices.get? key =
      if key = m.vertices.nextKey then some { v with node := some m.graph.nodes.nextKey }
      else m.vertices.get? key := by
  rw [attach_vertices, Arena.get?_modify]
  split_ifs with h
  · simp [Arena.get?_insert]
  · rw [Arena.get?_insert, if_neg h]

theorem get?_setVertex (hkey : m.graph.vertexOf? n = some key) (w : Vertex α) (l : VertexKey) :
    (m.setVertex n w).vertices.get? l =
      if l = key then (m.vertices.get? key).map fun _ => w else m.vertices.get? l := by
  simp only [setVertex, hkey, Arena.get?_modify]

theorem get?_discard (m : Mesh α) (retention : Retention) (n : NodeKey) (key : VertexKey) :
    (m.discard retention n).vertices.get? key =
      if m.graph.vertexOf? n = some key then
        match retention with
        | .deferred => (m.vertices.get? key).map fun v => { v with node := none }
        | .immediate => none
      else m.vertices.get? key := by
  rw [← Graph.removeNode_fst]
  unfold discard
  split
  · next h => simp [h]
  · next removed graph h =>
    simp only [h, Option.some.injEq, @eq_comm _ removed]
    cases retention
    · rw [Arena.get?_modify]
      split_ifs with heq
      · rw [heq]
      · rfl
    · rw [Arena.get?_erase]

/-- A change keeps all nodes and the keys of their vertices. -/
theorem Change.vertexOf?_eq (h : Change m m') (hkey : m.graph.vertexOf? n = some key) :
    m'.graph.vertexOf? n = some key := by
  cases h with
  | unmark nodes => simpa only [Graph.vertexOf?, unmark_graph_nodes] using hkey
  | attach v untested =>
    rw [attach_graph, Graph.vertexOf?_addNode, if_neg, hkey]
    rintro rfl
    exact m.graph.not_contains_nextKey (Graph.contains_iff.2 ⟨key, hkey⟩)
  | join u v => rwa [join_graph, Graph.vertexOf?_addEdge]
  | setVertex => rwa [setVertex_graph]
  | reopen n => rwa [vertexOf?_reopen]

theorem vertexOf?_of_changes (h : ReflTransGen Change m m')
    (hkey : m.graph.vertexOf? n = some key) : m'.graph.vertexOf? n = some key := by
  induction h with
  | refl => exact hkey
  | tail _ hchange ih => exact hchange.vertexOf?_eq ih

/-- Nodes and stored vertices belong together. Vertices without a node are only kept where removal
is deferred. -/
structure IsFiled (retention : Retention) (m : Mesh α) : Prop where
  linked : m.IsLinked
  filed : ∀ {key v}, m.vertices.get? key = some v →
    (∃ n, v.node = some n ∧ m.graph.vertexOf? n = some key) ∨
      (v.node = none ∧ retention = .deferred)

theorem isFiled_empty : (empty : Mesh α).IsFiled retention where
  linked := ⟨fun {n key} h => by simp [empty, Graph.empty, Graph.vertexOf?] at h⟩
  filed h := by simp [empty] at h

namespace IsFiled

/-- A change that leaves the keys and the stored vertices alone. -/
theorem congr (h : m.IsFiled retention) (hkeys : ∀ n, m'.graph.vertexOf? n = m.graph.vertexOf? n)
    (hvertices : m'.vertices = m.vertices) : m'.IsFiled retention := by
  refine ⟨⟨fun {n key} hkey => ?_⟩, fun {key v} hv => ?_⟩
  · rw [hvertices]
    exact h.linked.stored (hkeys n ▸ hkey)
  · rw [hvertices] at hv
    simpa only [hkeys] using h.filed hv

theorem attach (h : m.IsFiled retention) (v : Vertex α) (b : Bool) :
    (m.attach v b).2.IsFiled retention := by
  have hold {n : NodeKey} {key : VertexKey} (hkey : m.graph.vertexOf? n = some key) :=
    (Change.attach m v b).vertexOf?_eq hkey
  refine ⟨⟨fun {n key} hkey => ?_⟩, fun {key w} hw => ?_⟩
  · rw [attach_graph, Graph.vertexOf?_addNode] at hkey
    rw [get?_attach]
    split_ifs at hkey with hn
    · obtain rfl := Option.some.inj hkey
      exact ⟨_, if_pos rfl, by rw [hn]⟩
    · obtain ⟨w, hw, hnode⟩ := h.linked.stored hkey
      have hne : key ≠ m.vertices.nextKey := by
        rintro rfl
        simp at hw
      exact ⟨w, (if_neg hne).trans hw, hnode⟩
  · rw [get?_attach] at hw
    split_ifs at hw with hkey
    · obtain rfl := Option.some.inj hw
      refine .inl ⟨_, rfl, ?_⟩
      rw [attach_graph, Graph.vertexOf?_addNode, if_pos rfl, hkey]
    · exact (h.filed hw).imp_left fun ⟨n, hn, hkey⟩ => ⟨n, hn, hold hkey⟩

theorem setVertex (h : m.IsFiled retention) (hv : m.vertex? n = some v) (hnode : w.node = v.node) :
    (m.setVertex n w).IsFiled retention := by
  obtain ⟨key, hkey, hget⟩ := vertex?_eq_some_iff.1 hv
  have hwn : w.node = some n := hnode.trans (h.linked.node_eq hv)
  refine ⟨⟨fun {k l} hl => ?_⟩, fun {l x} hx => ?_⟩
  · rw [setVertex_graph] at hl
    rw [get?_setVertex hkey]
    split_ifs with heq
    · obtain rfl := h.linked.vertexOf?_inj hkey (heq ▸ hl)
      exact ⟨w, by rw [hget, Option.map_some], hwn⟩
    · exact h.linked.stored hl
  · rw [get?_setVertex hkey] at hx
    rw [setVertex_graph]
    split_ifs at hx with heq
    · rw [hget, Option.map_some] at hx
      obtain rfl := Option.some.inj hx
      exact .inl ⟨n, hwn, heq ▸ hkey⟩
    · exact h.filed hx

theorem change (h : m.IsFiled retention) (hchange : Change m m') : m'.IsFiled retention := by
  cases hchange with
  | unmark nodes =>
    exact h.congr (fun n => by simp only [Graph.vertexOf?, unmark_graph_nodes]) rfl
  | attach v untested => exact h.attach v untested
  | join u v => exact h.congr (fun n => by rw [join_graph, Graph.vertexOf?_addEdge]) rfl
  | setVertex hv hnode => exact h.setVertex hv hnode
  | reopen n => exact h.congr (vertexOf?_reopen m n) (by rw [reopen_snd])

theorem changes (h : m.IsFiled retention) (hchanges : ReflTransGen Change m m') :
    m'.IsFiled retention := by
  induction hchanges with
  | refl => exact h
  | tail _ hchange ih => exact ih.change hchange

theorem discard (h : m.IsFiled retention) (n : NodeKey) :
    (m.discard retention n).IsFiled retention := by
  refine ⟨⟨fun {k key} hkey => ?_⟩, fun {key v} hv => ?_⟩
  · rw [discard_graph, Graph.vertexOf?_removeNode] at hkey
    split_ifs at hkey with hk
    have hother : m.graph.vertexOf? n ≠ some key := fun hn => hk (h.linked.vertexOf?_inj hkey hn)
    rw [get?_discard, if_neg hother]
    exact h.linked.stored hkey
  · rw [get?_discard] at hv
    split_ifs at hv with hkey
    · cases retention with
      | immediate => cases hv
      | deferred =>
        obtain ⟨w, -, rfl⟩ := Option.map_eq_some_iff.1 hv
        exact .inr ⟨rfl, rfl⟩
    · refine (h.filed hv).imp_left ?_
      rintro ⟨k, hk, hkey'⟩
      refine ⟨k, hk, ?_⟩
      rw [discard_graph, Graph.vertexOf?_removeNode, if_neg, hkey']
      rintro rfl
      exact hkey hkey'

theorem discards (h : m.IsFiled retention) (nodes : List NodeKey) :
    (nodes.foldl (·.discard retention ·) m).IsFiled retention := by
  induction nodes generalizing m with
  | nil => exact h
  | cons n nodes ih => exact ih (h.discard n)

theorem takeUntested (h : m.IsFiled retention) :
    Mesh.IsFiled retention { m with graph := m.graph.takeUntested.2 } :=
  h.congr (fun n => by simp only [Graph.vertexOf?, Graph.takeUntested_nodes]) rfl

end IsFiled

/-- Where vertices are removed with their nodes, there are as many of the ones as of the others. -/
theorem IsFiled.size_eq (h : m.IsFiled .immediate) : m.vertices.size = m.graph.size := by
  have hperm : (m.vertices.keys.map some).Perm (m.graph.nodes.keys.map m.graph.vertexOf?) := by
    refine (List.perm_ext_iff_of_nodup
      (m.vertices.nodup_keys.map (Option.some_injective _)) ?_).2 ?_
    · refine m.graph.nodes.nodup_keys.map_on fun n hn k _ heq => ?_
      obtain ⟨key, hkey⟩ := Graph.contains_iff.1 (Arena.mem_keys.1 hn)
      exact h.linked.vertexOf?_inj hkey (heq ▸ hkey)
    · intro key?
      simp only [List.mem_map, Arena.mem_keys]
      constructor
      · rintro ⟨key, hkey, rfl⟩
        obtain ⟨v, hv⟩ := Option.isSome_iff_exists.1 hkey
        obtain ⟨n, -, hn⟩ := (h.filed hv).resolve_right fun hc => nomatch hc.2
        exact ⟨n, Graph.contains_iff.2 ⟨key, hn⟩, hn⟩
      · rintro ⟨n, hn, rfl⟩
        obtain ⟨key, hkey⟩ := Graph.contains_iff.1 hn
        obtain ⟨v, hv, -⟩ := h.linked.stored hkey
        exact ⟨key, Option.isSome_iff_exists.2 ⟨v, hv⟩, hkey.symm⟩
  rw [← Arena.length_keys, Graph.size, ← Arena.length_keys]
  simpa only [List.length_map] using hperm.length_eq

def Lives (m : Mesh α) (key : VertexKey) (v : Vertex α) : Prop :=
  ∃ n, m.graph.vertexOf? n = some key ∧ m.vertex? n = some v

def Loose (m : Mesh α) (key : VertexKey) (v : Vertex α) : Prop :=
  m.vertices.get? key = some v ∧ v.node = none

def Detaches (m : Mesh α) (n : NodeKey) (key : VertexKey) (v : Vertex α) : Prop :=
  m.graph.vertexOf? n = some key ∧ ∃ w, m.vertex? n = some w ∧ v = { w with node := none }

/-- The vertex is that of a node that is gone in the second mesh, detached from it. -/
def Departs (m m' : Mesh α) (key : VertexKey) (v : Vertex α) : Prop :=
  ∃ n, ¬ m'.graph.contains n ∧ m.Detaches n key v

theorem IsFiled.get?_eq_some_iff (h : m.IsFiled retention) :
    m.vertices.get? key = some v ↔ m.Lives key v ∨ m.Loose key v := by
  constructor
  · intro hv
    refine (h.filed hv).imp ?_ fun hnone => ⟨hv, hnone.1⟩
    rintro ⟨n, -, hn⟩
    exact ⟨n, hn, vertex?_eq_some_iff.2 ⟨key, hn, hv⟩⟩
  · rintro (⟨n, hn, hv⟩ | hv)
    · obtain ⟨_, hkey, hget⟩ := vertex?_eq_some_iff.1 hv
      rwa [Option.some.inj (hn.symm.trans hkey)]
    · exact hv.1

theorem IsFiled.not_loose (h : m.IsFiled .immediate) : ¬ m.Loose key v := by
  rintro ⟨hv, hnone⟩
  rcases h.filed hv with ⟨n, hn, -⟩ | ⟨-, heq⟩
  · rw [hnone] at hn
    cases hn
  · cases heq

/-- A loose vertex is not that of a node. -/
theorem IsLinked.ne_of_loose (h : m.IsLinked) (hv : m.Loose key v) :
    m.graph.vertexOf? n ≠ some key := by
  intro hkey
  obtain ⟨w, hw, hnode⟩ := h.stored hkey
  obtain rfl := Option.some.inj (hv.1.symm.trans hw)
  rw [hv.2] at hnode
  cases hnode

theorem Change.loose_iff (h : Change m m') (hm : m.IsLinked) : m'.Loose key v ↔ m.Loose key v := by
  cases h with
  | unmark | join => rfl
  | reopen n => rw [Loose, reopen_snd, Loose]
  | attach w untested =>
    rw [Loose, get?_attach]
    split_ifs with hnext
    · refine iff_of_false ?_ fun hv => ?_
      · rintro ⟨heq, hnone⟩
        obtain rfl := Option.some.inj heq
        cases hnone
      · simp [Loose, hnext] at hv
    · rfl
  | @setVertex n u w hu hnode =>
    obtain ⟨l, hl, hget⟩ := vertex?_eq_some_iff.1 hu
    rw [Loose, get?_setVertex hl]
    split_ifs with hkey
    · refine iff_of_false ?_ fun hv => hm.ne_of_loose hv (hkey ▸ hl)
      rintro ⟨heq, hnone⟩
      rw [hget, Option.map_some, Option.some.injEq] at heq
      rw [← heq, hnode, hm.node_eq hu] at hnone
      cases hnone
    · rfl

theorem Change.stored (h : Change m m') (hkey : m.vertices.contains key) :
    m'.vertices.contains key := by
  obtain ⟨v, hv⟩ := Option.isSome_iff_exists.1 hkey
  cases h with
  | unmark | join => exact hkey
  | reopen n =>
    rw [reopen_snd]
    exact hkey
  | attach w untested =>
    rw [Arena.contains, get?_attach]
    split_ifs
    exacts [rfl, hkey]
  | setVertex hu _ =>
    obtain ⟨l, hl, -⟩ := vertex?_eq_some_iff.1 hu
    rw [Arena.contains, get?_setVertex hl]
    split_ifs with heq
    · rw [← heq, hv, Option.map_some, Option.isSome_some]
    · exact hkey

/-- Changes make no vertex loose and take none away. -/
theorem loose_of_changes (h : ReflTransGen Change m m') (hm : m.IsFiled retention) :
    (∀ {key}, m.vertices.contains key → m'.vertices.contains key) ∧
      ∀ {key v}, m'.Loose key v ↔ m.Loose key v := by
  induction h with
  | refl => exact ⟨id, .rfl⟩
  | tail hchanges hchange ih =>
    exact ⟨fun hkey => hchange.stored (ih.1 hkey),
      (hchange.loose_iff (hm.changes hchanges).linked).trans ih.2⟩

theorem stored_discards (m : Mesh α) (nodes : List NodeKey) (hkey : m.vertices.contains key) :
    (nodes.foldl (·.discard .deferred ·) m).vertices.contains key := by
  induction nodes generalizing m with
  | nil => exact hkey
  | cons n nodes ih =>
    refine ih _ ?_
    rw [Arena.contains, get?_discard]
    split_ifs
    · rwa [Option.isSome_map]
    · exact hkey

theorem loose_discard (hm : m.IsLinked) :
    (m.discard .deferred n).Loose key v ↔ m.Loose key v ∨ m.Detaches n key v := by
  rw [Loose, get?_discard]
  split_ifs with hkey
  · obtain ⟨w, hw, -⟩ := hm.stored hkey
    have hvertex : m.vertex? n = some w := vertex?_eq_some_iff.2 ⟨key, hkey, hw⟩
    have htight : ¬ m.Loose key v := fun hv => hm.ne_of_loose hv hkey
    simp only [hw, Option.map_some, Option.some.injEq, htight, false_or, Detaches, hkey, hvertex,
      true_and, exists_eq_left', @eq_comm _ v]
    refine and_iff_left_of_imp ?_
    rintro rfl
    rfl
  · exact (or_iff_left fun hv => hkey hv.1).symm

/-- Discarding nodes makes their vertices loose and no other ones. -/
theorem loose_discards (hm : m.IsFiled .deferred) (nodes : List NodeKey) :
    (nodes.foldl (·.discard .deferred ·) m).Loose key v ↔
      m.Loose key v ∨ ∃ n ∈ nodes, m.Detaches n key v := by
  induction nodes generalizing m with
  | nil => simp
  | cons k nodes ih =>
    -- a node that is listed twice is discarded once
    have hother (n : NodeKey) :
        (m.discard .deferred k).Detaches n key v ↔ n ≠ k ∧ m.Detaches n key v := by
      rw [Detaches, discard_graph, Graph.vertexOf?_removeNode, hm.linked.vertex?_discard]
      split_ifs with hn
      · simp [hn]
      · simp [hn, Detaches]
    rw [List.foldl_cons, ih (hm.discard k), loose_discard hm.linked]
    simp only [hother, List.mem_cons, exists_eq_or_imp, or_assoc]
    refine or_congr_right ⟨fun h => h.imp_right ?_, fun h => ?_⟩
    · rintro ⟨n, hn, -, hdetaches⟩
      exact ⟨n, hn, hdetaches⟩
    · rcases h with hk | ⟨n, hn, hdetaches⟩
      · exact .inl hk
      · by_cases hnk : n = k
        exacts [.inl (hnk ▸ hdetaches), .inr ⟨n, hn, hnk, hdetaches⟩]

/-- From the first mesh to the second one, vertices become loose just by the loss of their node, and
all that is stored remains so. -/
structure Sheds (m m' : Mesh α) : Prop where
  filed : m'.IsFiled .deferred
  stored : ∀ {key}, m.vertices.contains key → m'.vertices.contains key
  loose_iff : ∀ {key v}, m'.Loose key v ↔ m.Loose key v ∨ m.Departs m' key v

/-- Nothing becomes loose where all nodes stay. -/
theorem sheds_of_kept (hfiled : m'.IsFiled .deferred)
    (hstored : ∀ {key}, m.vertices.contains key → m'.vertices.contains key)
    (hloose : ∀ {key v}, m'.Loose key v ↔ m.Loose key v)
    (hkept : ∀ {n}, m.graph.contains n → m'.graph.contains n) : m.Sheds m' := by
  refine ⟨hfiled, hstored, fun {key v} => hloose.trans (or_iff_left ?_).symm⟩
  rintro ⟨n, hn, hkey, -⟩
  exact hn (hkept (Graph.contains_iff.2 ⟨key, hkey⟩))

theorem Sheds.refl (h : m.IsFiled .deferred) : m.Sheds m := sheds_of_kept h id .rfl id

theorem sheds_of_changes (h : ReflTransGen Change m m') (hm : m.IsFiled .deferred) :
    m.Sheds m' := by
  obtain ⟨hstored, hloose⟩ := loose_of_changes h hm
  refine sheds_of_kept (hm.changes h) hstored hloose fun {n} hn => ?_
  obtain ⟨key, hkey⟩ := Graph.contains_iff.1 hn
  exact Graph.contains_iff.2 ⟨key, vertexOf?_of_changes h hkey⟩

theorem sheds_takeUntested (h : m.IsFiled .deferred) :
    m.Sheds { m with graph := m.graph.takeUntested.2 } := by
  refine sheds_of_kept h.takeUntested id .rfl fun {n} hn => ?_
  simpa only [Graph.contains, Graph.takeUntested_nodes] using hn

end Mesh

variable {α : Type} [Scalar α] {m s₁ s₂ s₃ m' : Mesh α} {p : Nat} {id : FacetId} {f : Facet α}
  {log : FacetLog α} {seed n : NodeKey} {r : Region} {created : List NodeKey}
  {origin : NodeKey → NodeKey × NodeKey} {fates : List Cut.Fate}

/-- The nodes that leave are those that are gone afterwards. -/
theorem Cut.Phases.mem_leaving_iff
    (h : Phases m s₁ s₂ s₃ m' p log id f seed r created origin fates) :
    n ∈ fates.filterMap (·.leaving?) ↔ m.graph.contains n ∧ ¬ m'.graph.contains n := by
  rw [h.effect.contains_iff h.sound, h.mem_leaving, Fresh]
  constructor
  · rintro ⟨hn, hl⟩
    have hold := h.notMem_created hn
    exact ⟨h.around.contains hn, by tauto⟩
  · tauto

/-- Until they leave, their vertices are as they were. -/
theorem Cut.Phases.vertex?_of_leaving
    (h : Phases m s₁ s₂ s₃ m' p log id f seed r created origin fates)
    (hn : n ∈ fates.filterMap (·.leaving?)) : s₃.vertex? n = m.vertex? n := by
  rw [h.mem_leaving] at hn
  rw [h.joined.vertex?_eq, h.settled.vertex?_eq, h.vertex?_split (h.notMem_created hn.1)]
  exact fun hlow => hn.2 (h.lowers_iff.1 hlow).2

namespace Mesh

/-- A cut that fails detaches nothing. -/
theorem sheds_cut (log : FacetLog α) (f : Facet α) (seed : NodeKey) (hm : m.IsSound p id)
    (hfiled : m.IsFiled .deferred) :
    Ends (cut log id f seed .deferred) m (fun _ => m.Sheds) fun _ => m.Sheds := by
  refine ((Cut.cut_phases log f seed hm .deferred).and
    (cut_changes log id f seed .deferred m)).mono ?_ fun _ _ hs => sheds_of_changes hs.2 hfiled
  rintro _ m' ⟨⟨r, created, origin, s₁, s₂, s, fates, -, h, hchanges, hm', -⟩, -⟩
  obtain ⟨hstored, hloose⟩ := loose_of_changes hchanges hfiled
  -- until they are discarded, the nodes that leave have the keys and vertices from before the cut
  have hdetaches {n : NodeKey} {key : VertexKey} {v : Vertex α}
      (hn : n ∈ fates.filterMap (·.leaving?)) : s.Detaches n key v ↔ m.Detaches n key v := by
    obtain ⟨l, hl⟩ := Graph.contains_iff.1 (h.mem_leaving_iff.1 hn).1
    rw [Detaches, Detaches, hl, vertexOf?_of_changes hchanges hl, h.vertex?_of_leaving hn]
  have hs := hfiled.changes hchanges
  refine ⟨hm' ▸ hs.discards _, fun hkey => hm' ▸ stored_discards s _ (hstored hkey),
    fun {key v} => ?_⟩
  have hdiscards : m'.Loose key v ↔
      s.Loose key v ∨ ∃ n ∈ fates.filterMap (·.leaving?), s.Detaches n key v :=
    hm' ▸ loose_discards hs _
  rw [hloose] at hdiscards
  refine hdiscards.trans (or_congr_right (exists_congr fun n => ?_))
  rw [and_congr_right hdetaches, h.mem_leaving_iff]
  refine ⟨fun hn => ⟨hn.1.2, hn.2⟩, fun hn => ⟨⟨?_, hn.1⟩, hn.2⟩⟩
  exact Graph.contains_iff.2 ⟨key, hn.2.1⟩

end Mesh

end WeightPolyhedron
