import WeightPolyhedron.Proofs.Mesh
import Mathlib.Logic.Relation

/-!
The violated region of a facet. On any mesh the search for it ends, at the first node without a
vertex or with the region: its nodes are those that steps to violated neighbours lead to from the
seed, and its cut edges are the edges that leave it. On a sound mesh it ends with the region.
-/

namespace WeightPolyhedron

namespace Mesh

variable {α : Type} [Scalar α] {m : Mesh α} {f : Facet α} {p bound : Nat}
  {seed n current : NodeKey}

def ViolatedAt (m : Mesh α) (f : Facet α) (n : NodeKey) : Prop :=
  ∃ v, m.vertex? n = some v ∧ f.violates v .strict

theorem violatedAt_iff {v : Vertex α} (hv : m.vertex? n = some v) :
    m.ViolatedAt f n ↔ f.violates v .strict := by
  simp [ViolatedAt, hv]

instance : Decidable (m.ViolatedAt f n) :=
  decidable_of_iff ((m.vertex? n).any (f.violates · .strict) = true)
    (by simp [ViolatedAt, Option.any_eq_true])

def Spreads (m : Mesh α) (f : Facet α) : NodeKey → NodeKey → Prop :=
  Relation.ReflTransGen fun a b => b ∈ m.graph.neighbors a ∧ m.ViolatedAt f b

theorem Spreads.eq_or_violatedAt (hs : m.Spreads f seed n) : n = seed ∨ m.ViolatedAt f n := by
  cases hs with
  | refl => exact .inl rfl
  | tail _ hstep => exact .inr hstep.2

theorem Spreads.violatedAt (hs : m.Spreads f seed n) (hseed : m.ViolatedAt f seed) :
    m.ViolatedAt f n := by
  rcases hs.eq_or_violatedAt with rfl | hn
  exacts [hseed, hn]

/-- A neighbour of what is reached from the seed that stands for no vertex. The seed is not looked
at. -/
def Lost (m : Mesh α) (f : Facet α) (seed n : NodeKey) : Prop :=
  n ≠ seed ∧ m.vertex? n = none ∧ ∃ a, m.Spreads f seed a ∧ n ∈ m.graph.neighbors a

end Mesh

namespace Region

variable {α : Type} [Scalar α]

/-- What holds of a region while the search is on. The relation tells which neighbours were sorted
into region and survivors already. -/
structure Covers (r : Region) (m : Mesh α) (f : Facet α) (seed : NodeKey)
    (Sorted : NodeKey → NodeKey → Prop) : Prop where
  head : r.nodes.head? = some seed
  nodup : r.nodes.Nodup
  contains : ∀ {n}, n ∈ r.nodes → m.graph.contains n
  reached : ∀ {n}, n ∈ r.nodes → m.Spreads f seed n
  mem_cutEdges : ∀ {a b}, (a, b) ∈ r.cutEdges ↔ Sorted a b ∧ b ∉ r.nodes
  cutEdges_nodup : (∀ n, (m.graph.neighbors n).Nodup) → r.cutEdges.Nodup
  survivor : ∀ {a b}, (a, b) ∈ r.cutEdges → ∃ v, m.vertex? b = some v ∧ ¬ f.violates v .strict

variable {r : Region} {m : Mesh α} {f : Facet α} {p bound : Nat} {seed n current : NodeKey}
  {Sorted : NodeKey → NodeKey → Prop} {v : Vertex α}

namespace Covers

theorem congr {Sorted' : NodeKey → NodeKey → Prop} (h : r.Covers m f seed Sorted)
    (hiff : ∀ a b, Sorted a b ↔ Sorted' a b) : r.Covers m f seed Sorted' := by
  obtain rfl : Sorted = Sorted' := funext₂ fun a b => propext (hiff a b)
  exact h

theorem seed_mem (h : r.Covers m f seed Sorted) : seed ∈ r.nodes := List.mem_of_mem_head? h.head

theorem violated (h : r.Covers m f seed Sorted) (hn : n ∈ r.nodes) : n = seed ∨ m.ViolatedAt f n :=
  (h.reached hn).eq_or_violatedAt

theorem survives (h : r.Covers m f seed Sorted) {a b : NodeKey} (he : (a, b) ∈ r.cutEdges) :
    ¬ m.ViolatedAt f b := by
  obtain ⟨v, hv, hsurvives⟩ := h.survivor he
  rwa [Mesh.violatedAt_iff hv]

/-- A violated neighbour that was sorted is in the region. -/
theorem mem_of_violated {a b : NodeKey} (h : r.Covers m f seed Sorted) (hs : Sorted a b)
    (hb : m.ViolatedAt f b) : b ∈ r.nodes := by
  by_contra hmem
  exact h.survives (h.mem_cutEdges.2 ⟨hs, hmem⟩) hb

/-- A neighbour that is in the region already is passed over. -/
theorem pass (h : r.Covers m f seed Sorted) (hn : n ∈ r.nodes) :
    r.Covers m f seed fun a b => Sorted a b ∨ (a = current ∧ b = n) where
  head := h.head
  nodup := h.nodup
  contains := h.contains
  reached := h.reached
  mem_cutEdges {a b} := by
    rw [h.mem_cutEdges]
    constructor
    · exact fun hs => ⟨.inl hs.1, hs.2⟩
    · rintro ⟨hs | ⟨-, rfl⟩, hb⟩
      exacts [⟨hs, hb⟩, absurd hn hb]
  cutEdges_nodup := h.cutEdges_nodup
  survivor := h.survivor

/-- A violated neighbour joins the region. -/
theorem grow (h : r.Covers m f seed Sorted) (hn : n ∉ r.nodes) (hreached : m.Spreads f seed n)
    (hv : m.vertex? n = some v) (hviolates : f.violates v .strict) :
    { r with nodes := r.nodes ++ [n] }.Covers m f seed
      fun a b => Sorted a b ∨ (a = current ∧ b = n) where
  head := by simp [h.head]
  nodup := h.nodup.append (List.nodup_singleton n) (by simpa using hn)
  contains {k} hk := by
    rcases List.mem_append.1 hk with hk | hk
    · exact h.contains hk
    · exact List.mem_singleton.1 hk ▸ Mesh.contains_of_vertex? hv
  reached {k} hk := by
    rcases List.mem_append.1 hk with hk | hk
    · exact h.reached hk
    · exact List.mem_singleton.1 hk ▸ hreached
  mem_cutEdges {a b} := by
    simp only [List.mem_append, List.mem_singleton, not_or]
    constructor
    · intro he
      obtain ⟨hs, hb⟩ := h.mem_cutEdges.1 he
      refine ⟨.inl hs, hb, ?_⟩
      rintro rfl
      exact h.survives he ⟨v, hv, hviolates⟩
    · rintro ⟨hs | ⟨-, rfl⟩, hb, hne⟩
      exacts [h.mem_cutEdges.2 ⟨hs, hb⟩, absurd rfl hne]
  cutEdges_nodup := h.cutEdges_nodup
  survivor := h.survivor

/-- A surviving neighbour leaves a cut edge. -/
theorem leave (h : r.Covers m f seed Sorted) (current : NodeKey) (hn : n ∉ r.nodes)
    (hnew : (∀ k, (m.graph.neighbors k).Nodup) → ¬ Sorted current n) (hv : m.vertex? n = some v)
    (hsurvives : ¬ f.violates v .strict) :
    { r with cutEdges := r.cutEdges ++ [(current, n)] }.Covers m f seed
      fun a b => Sorted a b ∨ (a = current ∧ b = n) where
  head := h.head
  nodup := h.nodup
  contains := h.contains
  reached := h.reached
  mem_cutEdges {a b} := by
    simp only [List.mem_append, List.mem_singleton, Prod.mk.injEq, h.mem_cutEdges]
    constructor
    · rintro (hs | ⟨rfl, rfl⟩)
      exacts [⟨.inl hs.1, hs.2⟩, ⟨.inr ⟨rfl, rfl⟩, hn⟩]
    · rintro ⟨hs | hs, hb⟩
      exacts [.inl ⟨hs, hb⟩, .inr hs]
  cutEdges_nodup hnodup := by
    apply (h.cutEdges_nodup hnodup).append (List.nodup_singleton _)
    simpa [h.mem_cutEdges] using fun hs => absurd hs (hnew hnodup)
  survivor {a b} he := by
    rcases List.mem_append.1 he with he | he
    · exact h.survivor he
    · rw [(Prod.mk.inj (List.mem_singleton.1 he)).2]
      exact ⟨v, hv, hsurvives⟩

end Covers

/-- The region found from a seed: every edge at one of its nodes was sorted. -/
abbrev IsAround (r : Region) (m : Mesh α) (f : Facet α) (seed : NodeKey) : Prop :=
  r.Covers m f seed fun a b => a ∈ r.nodes ∧ b ∈ m.graph.neighbors a

/-- The region around a seed is all that steps to violated neighbours lead to. -/
theorem Covers.mem_iff (hr : r.IsAround m f seed) : n ∈ r.nodes ↔ m.Spreads f seed n := by
  constructor
  · exact hr.reached
  · intro hs
    induction hs with
    | refl => exact hr.seed_mem
    | tail _ hstep ih => exact hr.mem_of_violated ⟨ih, hstep.1⟩ hstep.2

/-- All neighbours of a region have a vertex. -/
theorem Covers.not_lost (hr : r.IsAround m f seed) : ¬ m.Lost f seed n := by
  rintro ⟨hne, hnone, a, ha, hn⟩
  have hmem : n ∉ r.nodes := by
    intro hmem
    obtain ⟨v, hv, -⟩ := (hr.violated hmem).resolve_left hne
    rw [hnone] at hv
    cases hv
  obtain ⟨v, hv, -⟩ := hr.survivor (hr.mem_cutEdges.2 ⟨⟨hr.mem_iff.2 ha, hn⟩, hmem⟩)
  rw [hnone] at hv
  cases hv

end Region

namespace Mesh

variable {α : Type} [Scalar α] {m : Mesh α} {f : Facet α} {p bound : Nat}
  {seed n current : NodeKey}

/-- The neighbours of a node that was reached are sorted, and what joins the region joins the queue;
or one of them stands for no vertex. -/
theorem sortNeighbors_cases (hcurrent : m.Spreads f seed current)
    (Sorted : NodeKey → NodeKey → Prop) (hnew : ∀ b, ¬ Sorted current b)
    (rest seen queue : List NodeKey) {r : Region}
    (hsplit : m.graph.neighbors current = seen ++ rest)
    (hr : r.Covers m f seed fun a b => Sorted a b ∨ (a = current ∧ b ∈ seen)) :
    (∃ n, m.Lost f seed n ∧ m.sortNeighbors f current rest (queue, r) =
      .error (.missingVertex n (m.graph.vertexOf? n))) ∨
    ∃ added r', m.sortNeighbors f current rest (queue, r) = .ok (queue ++ added, r') ∧
      r'.nodes = r.nodes ++ added ∧
      r'.Covers m f seed fun a b => Sorted a b ∨ (a = current ∧ b ∈ m.graph.neighbors current) := by
  induction rest generalizing seen queue r with
  | nil =>
    refine .inr ⟨[], r, by simp [sortNeighbors], by simp, ?_⟩
    rwa [hsplit, List.append_nil]
  | cons n rest ih =>
    have hn : n ∈ m.graph.neighbors current := by simp [hsplit]
    have hnext : m.graph.neighbors current = (seen ++ [n]) ++ rest := by simp [hsplit]
    have hiff (a b) : ((Sorted a b ∨ (a = current ∧ b ∈ seen)) ∨ (a = current ∧ b = n)) ↔
        (Sorted a b ∨ (a = current ∧ b ∈ seen ++ [n])) := by
      simp only [List.mem_append, List.mem_singleton]
      tauto
    unfold sortNeighbors
    by_cases hmem : n ∈ r.nodes
    · rw [if_pos (by simpa [Region.contains] using hmem)]
      exact ih _ _ hnext ((hr.pass hmem).congr hiff)
    rw [if_neg (by simpa [Region.contains] using hmem)]
    cases hv : m.vertex? n with
    | none =>
      have hne : n ≠ seed := by
        rintro rfl
        exact hmem hr.seed_mem
      exact .inl ⟨n, ⟨hne, hv, current, hcurrent, hn⟩, by simp [vertexAt, hv]⟩
    | some v =>
      rw [vertexAt_eq_ok_iff.2 hv]
      by_cases hviolates : f.violates v .strict
      · simp only [hviolates, if_true]
        have hreached : m.Spreads f seed n := hcurrent.tail ⟨hn, v, hv, hviolates⟩
        rcases ih _ (queue ++ [n]) hnext ((hr.grow hmem hreached hv hviolates).congr hiff) with
          hlost | ⟨added, r', heq, hnodes, hr'⟩
        · exact .inl hlost
        · exact .inr ⟨n :: added, r', by simp [heq], by simp [hnodes], hr'⟩
      · simp only [hviolates, if_false, Bool.false_eq_true]
        have hfirst : (∀ k, (m.graph.neighbors k).Nodup) → n ∉ seen := by
          intro hnodup hseen
          have hnodup := hnodup current
          rw [hsplit] at hnodup
          exact List.disjoint_of_nodup_append hnodup hseen (List.mem_cons_self ..)
        apply ih _ queue hnext
        exact (hr.leave current hmem (fun hnodup => by simpa [hfirst hnodup] using hnew n) hv
          hviolates).congr hiff

/-- The search ends before its bound does. The nodes found are those worked off, then those in the
queue. -/
theorem spread_cases {fuel : Nat} (front queue : List NodeKey) {r : Region}
    (hnodes : r.nodes = front ++ queue) (hfuel : m.graph.size ≤ fuel + front.length)
    (hr : r.Covers m f seed fun a b => a ∈ front ∧ b ∈ m.graph.neighbors a) :
    (∃ n, m.Lost f seed n ∧
      m.spread f fuel (queue, r) = .error (.missingVertex n (m.graph.vertexOf? n))) ∨
    ∃ r', m.spread f fuel (queue, r) = .ok r' ∧ r'.IsAround m f seed := by
  induction fuel generalizing front queue r with
  | zero =>
    have hlen : r.nodes.length ≤ m.graph.size :=
      Arena.length_le_size hr.nodup fun n hn => hr.contains hn
    have hqueue : queue = [] := by
      rw [hnodes, List.length_append] at hlen
      exact List.length_eq_zero_iff.1 (by omega)
    refine .inr ⟨r, by simp [spread], hr.congr fun a b => ?_⟩
    rw [hnodes, hqueue, List.append_nil]
  | succ fuel ih =>
    cases queue with
    | nil =>
      refine .inr ⟨r, by simp [spread], hr.congr fun a b => ?_⟩
      rw [hnodes, List.append_nil]
    | cons current queue =>
      have hcurrent : current ∉ front := fun hf =>
        List.disjoint_of_nodup_append (hnodes ▸ hr.nodup) hf (List.mem_cons_self ..)
      have hreached : m.Spreads f seed current := hr.reached (by simp [hnodes])
      rcases sortNeighbors_cases hreached
          (fun a b => a ∈ front ∧ b ∈ m.graph.neighbors a) (fun b hb => hcurrent hb.1)
          (m.graph.neighbors current) [] queue rfl (hr.congr fun a b => by simp) with
        ⟨n, hn, heq⟩ | ⟨added, r', heq, hnodes', hr'⟩
      · exact .inl ⟨n, hn, by simp only [spread, heq]⟩
      simp only [spread, heq]
      refine ih (front ++ [current]) _ ?_ ?_ (hr'.congr fun a b => ?_)
      · simp [hnodes', hnodes]
      · simp only [List.length_append, List.length_singleton]
        omega
      · simp only [List.mem_append, List.mem_singleton]
        constructor
        · rintro (⟨ha, hb⟩ | ⟨rfl, hb⟩)
          exacts [⟨.inl ha, hb⟩, ⟨.inr rfl, hb⟩]
        · rintro ⟨ha | rfl, hb⟩
          exacts [.inl ⟨ha, hb⟩, .inr ⟨rfl, hb⟩]

/-- From a node of the graph, the search finds the region or comes to a node without a vertex. -/
theorem violatedRegion_cases (m : Mesh α) (f : Facet α) (hseed : m.graph.contains seed) :
    (∃ n, m.Lost f seed n ∧
      m.violatedRegion f seed = .error (.missingVertex n (m.graph.vertexOf? n))) ∨
    ∃ r, m.violatedRegion f seed = .ok r ∧ r.IsAround m f seed := by
  have hstart : (⟨[seed], []⟩ : Region).Covers m f seed fun a b =>
      a ∈ ([] : List NodeKey) ∧ b ∈ m.graph.neighbors a := by
    constructor <;> simp [hseed, Spreads, Relation.ReflTransGen.refl]
  have hfuel : m.graph.size ≤ m.graph.size + ([] : List NodeKey).length := Nat.le_add_right ..
  simpa [violatedRegion, hseed] using spread_cases [] [seed] rfl hfuel hstart

theorem violatedRegion_of_not_contains (hseed : ¬ m.graph.contains seed) :
    m.violatedRegion f seed = .error (.missingSeed seed) := by
  simp [violatedRegion, hseed]

theorem isAround_of_violatedRegion {r : Region} (h : m.violatedRegion f seed = .ok r) :
    r.IsAround m f seed := by
  by_cases hseed : m.graph.contains seed
  · rcases m.violatedRegion_cases f hseed with ⟨n, -, herror⟩ | ⟨r', hok, hr'⟩
    · rw [h] at herror
      cases herror
    · obtain rfl := Except.ok.inj (h.symm.trans hok)
      exact hr'
  · rw [violatedRegion_of_not_contains hseed] at h
    cases h

theorem mem_violatedRegion_iff {r : Region} (h : m.violatedRegion f seed = .ok r) :
    n ∈ r.nodes ↔ m.Spreads f seed n :=
  (isAround_of_violatedRegion h).mem_iff

/-- The failure names a node without a vertex that the search came to. -/
theorem lost_of_violatedRegion {key : Option VertexKey}
    (h : m.violatedRegion f seed = .error (.missingVertex n key)) :
    m.Lost f seed n ∧ key = m.graph.vertexOf? n := by
  by_cases hseed : m.graph.contains seed
  · rcases m.violatedRegion_cases f hseed with ⟨k, hk, herror⟩ | ⟨r, hok, -⟩
    · rw [h] at herror
      cases herror
      exact ⟨hk, rfl⟩
    · rw [h] at hok
      cases hok
  · rw [violatedRegion_of_not_contains hseed] at h
    cases h

theorem exists_missingVertex_iff (f : Facet α) (hseed : m.graph.contains seed) :
    (∃ n key, m.violatedRegion f seed = .error (.missingVertex n key)) ↔ ∃ n, m.Lost f seed n := by
  constructor
  · exact fun ⟨n, _, herror⟩ => ⟨n, (lost_of_violatedRegion herror).1⟩
  · rintro ⟨n, hn⟩
    rcases m.violatedRegion_cases f hseed with ⟨k, -, herror⟩ | ⟨r, -, hr⟩
    exacts [⟨k, _, herror⟩, absurd hn hr.not_lost]

/-- Where all neighbours have a vertex, there is a region. -/
theorem exists_violatedRegion (f : Facet α) (hseed : m.graph.contains seed)
    (hstored : ∀ a, ∀ n ∈ m.graph.neighbors a, ∃ v, m.vertex? n = some v) :
    ∃ r, m.violatedRegion f seed = .ok r ∧ r.IsAround m f seed := by
  rcases m.violatedRegion_cases f hseed with ⟨n, ⟨-, hnone, a, -, hn⟩, -⟩ | hok
  · obtain ⟨v, hv⟩ := hstored a n hn
    rw [hnone] at hv
    cases hv
  · exact hok

/-- From a node that is not in the graph there is no search. From one that is, the search fails just
if something reached through violated nodes has a neighbour without a vertex, the seed apart. Where
lists of neighbours hold no node twice and only nodes of the graph, and each of these stands for a
vertex, it finds a region: the nodes that steps to violated neighbours lead to, each once and the
seed first, and the edges from one of them to a node outside, each once. -/
theorem violatedRegion_component (m : Mesh α) (f : Facet α) (seed : NodeKey) :
    (¬ m.graph.contains seed → m.violatedRegion f seed = .error (.missingSeed seed)) ∧
    (m.graph.contains seed →
      ((∃ n key, m.violatedRegion f seed = .error (.missingVertex n key)) ↔
        ∃ a b, m.Spreads f seed a ∧ b ∈ m.graph.neighbors a ∧ b ≠ seed ∧ m.vertex? b = none) ∧
      ((∀ n, (m.graph.neighbors n).Nodup) →
        (∀ n, ∀ u ∈ m.graph.neighbors n, m.graph.contains u) →
        (∀ n, m.graph.contains n → ∃ v, m.vertex? n = some v) →
        ∃ r, m.violatedRegion f seed = .ok r ∧ r.nodes.Nodup ∧ r.nodes.head? = some seed ∧
          (∀ n, n ∈ r.nodes ↔ m.Spreads f seed n) ∧
          (∀ a b, (a, b) ∈ r.cutEdges ↔ a ∈ r.nodes ∧ b ∈ m.graph.neighbors a ∧ b ∉ r.nodes) ∧
          r.cutEdges.Nodup)) := by
  refine ⟨violatedRegion_of_not_contains, fun hseed => ⟨?missing, ?region⟩⟩
  case missing =>
    rw [exists_missingVertex_iff f hseed]
    constructor
    · exact fun ⟨b, hne, hnone, a, ha, hb⟩ => ⟨a, b, ha, hb, hne, hnone⟩
    · exact fun ⟨a, b, ha, hb, hne, hnone⟩ => ⟨b, hne, hnone, a, ha, hb⟩
  case region =>
    intro hnodup hlive hstored
    obtain ⟨r, hok, hr⟩ := exists_violatedRegion f hseed fun a n hn => hstored n (hlive a n hn)
    refine ⟨r, hok, hr.nodup, hr.head, fun n => hr.mem_iff, fun a b => ?_, hr.cutEdges_nodup hnodup⟩
    rw [hr.mem_cutEdges, and_assoc]

/-- Of the corners of a triangle, all joined, a point cuts off two. They are the region from the
first of them, and their edges to the third are cut. -/
theorem violatedRegion_component_of_triangle :
    let corner (weight : List Rat) (m : Mesh Rat) : Mesh Rat :=
      (m.attach ⟨weight, 1, [], none⟩ true).2
    let m :=
      (((corner [0, 0, 1] (corner [0, 1, 0] (corner [1, 0, 0] empty))).join ⟨0, 0⟩ ⟨1, 0⟩).join
      ⟨1, 0⟩ ⟨2, 0⟩).join ⟨0, 0⟩ ⟨2, 0⟩
    let f : Facet Rat := ⟨[0, 0, 5, -1], .point⟩
    ∃ r, m.violatedRegion f ⟨0, 0⟩ = .ok r ∧ r.nodes.Nodup ∧ r.nodes.head? = some ⟨0, 0⟩ ∧
      (∀ n, n ∈ r.nodes ↔ m.Spreads f ⟨0, 0⟩ n) ∧
      (∀ a b, (a, b) ∈ r.cutEdges ↔ a ∈ r.nodes ∧ b ∈ m.graph.neighbors a ∧ b ∉ r.nodes) ∧
      r.cutEdges.Nodup := by
  intro corner m f
  have hkeys : ∀ n ∈ m.graph.nodes.keys, (m.graph.neighbors n).Nodup ∧
      (∀ u ∈ m.graph.neighbors n, m.graph.contains u) ∧ (m.vertex? n).isSome := by
    decide +kernel
  have hseed : m.graph.contains ⟨0, 0⟩ := by decide +kernel
  refine ((violatedRegion_component m f ⟨0, 0⟩).2 hseed).2 ?_ ?_ ?_
  · intro n
    by_cases hn : m.graph.contains n
    · exact (hkeys n (Arena.mem_keys.2 hn)).1
    · simp [Graph.neighbors_of_not_contains hn]
  · intro n u hu
    exact (hkeys n (Arena.mem_keys.2 (Graph.contains_of_mem_neighbors hu))).2.1 u hu
  · intro n hn
    exact Option.isSome_iff_exists.1 (hkeys n (Arena.mem_keys.2 hn)).2.2

theorem IsSound.violatedRegion_eq_ok (h : m.IsSound p bound) (f : Facet α)
    (hseed : m.graph.contains seed) :
    ∃ r, m.violatedRegion f seed = .ok r ∧ r.IsAround m f seed :=
  exists_violatedRegion f hseed fun _ _ hn =>
    h.contains_iff_vertex?.1 (h.simple.contains_neighbor hn)

/-- Among violated nodes the steps lead back as well. -/
theorem IsSound.spreads_comm (h : m.IsSound p bound) (hseed : m.ViolatedAt f seed)
    (hs : m.Spreads f seed n) : m.Spreads f n seed := by
  induction hs with
  | refl => exact .refl
  | tail hfront hstep ih => exact .head ⟨h.simple.symm hstep.1, Spreads.violatedAt hfront hseed⟩ ih

end Mesh

end WeightPolyhedron
