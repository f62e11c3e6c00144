import WeightPolyhedron.Proofs.Graph
import Mathlib.Data.Sym.Sym2

/-!
The edges of a graph as unordered pairs of nodes. Each entry of a list of neighbours is an arc. In a
simple graph every edge is made of two arcs, one from each end, and it is listed at one of them.
-/

namespace WeightPolyhedron

namespace Edge

def ends (e : Edge) : Sym2 NodeKey := s(e.fst, e.snd)

variable {a b c d : NodeKey}

theorem between_comm : between a b = between b a := by
  have htotal : a.byGeneration b ∨ b.byGeneration a := by
    simp only [Key.byGeneration, Bool.or_eq_true, Bool.and_eq_true, decide_eq_true_eq, beq_iff_eq]
    omega
  have hantisymm (h : a.byGeneration b) (h' : b.byGeneration a) : a = b := by
    simp only [Key.byGeneration, Bool.or_eq_true, Bool.and_eq_true, decide_eq_true_eq,
      beq_iff_eq] at h h'
    exact Key.ext (by omega) (by omega)
  unfold between
  split_ifs with h h' h'
  · rw [hantisymm h h']
  · rfl
  · rfl
  · exact absurd htotal (by simp [h, h'])

@[simp] theorem ends_between (a b : NodeKey) : (between a b).ends = s(a, b) := by
  unfold between
  split_ifs
  · rfl
  · exact Sym2.eq_swap

/-- An edge is told by its ends alone. -/
theorem between_eq_iff : between a b = between c d ↔ s(a, b) = s(c, d) := by
  constructor
  · intro h
    simpa using congrArg ends h
  · intro h
    rcases Sym2.eq_iff.1 h with ⟨rfl, rfl⟩ | ⟨rfl, rfl⟩
    · rfl
    · exact between_comm

/-- The first end of an edge is one of the two nodes, and which one does not depend on their
order. -/
theorem fst_between_swap (hab : a ≠ b) : (between b a).fst = b ↔ (between a b).fst ≠ a := by
  rw [between_comm (a := b)]
  unfold between
  split_ifs <;> simp [hab, hab.symm]

end Edge

namespace Graph

variable {g : Graph} {n u v a b : NodeKey}

/-- The nodes with their neighbours, one pair for each entry of a list. -/
def arcs (g : Graph) : List (NodeKey × NodeKey) :=
  g.nodes.entries.flatMap fun (n, entry) => entry.neighbors.map fun u => (n, u)

def Forward (arc : NodeKey × NodeKey) : Prop := (Edge.between arc.1 arc.2).fst = arc.1

instance : DecidablePred Forward := fun arc => inferInstanceAs (Decidable (_ = arc.1))

theorem mem_arcs : (n, u) ∈ g.arcs ↔ u ∈ g.neighbors n := by
  simp only [arcs, List.mem_flatMap, List.mem_map, Prod.mk.injEq, Prod.exists, Arena.mem_entries]
  constructor
  · rintro ⟨n', entry, hget, u', hu, rfl, rfl⟩
    simpa [neighbors, hget] using hu
  · intro hu
    cases hget : g.nodes.get? n with
    | none => simp [neighbors, hget] at hu
    | some entry => exact ⟨n, entry, hget, u, by simpa [neighbors, hget] using hu, rfl, rfl⟩

theorem length_arcs (g : Graph) :
    g.arcs.length = g.nodes.entries.foldl (fun n (_, entry) => n + entry.neighbors.length) 0 := by
  suffices h : ∀ (l : List (NodeKey × Node)) (start : Nat),
      start + (l.flatMap fun (n, entry) => entry.neighbors.map fun u => (n, u)).length =
        l.foldl (fun n (_, entry) => n + entry.neighbors.length) start by
    simpa [arcs] using h g.nodes.entries 0
  intro l
  induction l with
  | nil => simp
  | cons e l ih =>
    intro start
    obtain ⟨n, entry⟩ := e
    rw [List.foldl_cons, ← ih, List.flatMap_cons, List.length_append, List.length_map,
      Nat.add_assoc]

/-- The list of edges holds the edges of the forward arcs. -/
theorem edges_eq (g : Graph) :
    g.edges = (g.arcs.filter (Forward ·)).map fun arc => Edge.between arc.1 arc.2 := by
  unfold edges arcs
  rw [List.filter_flatMap, List.map_flatMap]
  congr 1
  funext e
  simp only [List.filter_map, List.map_map]
  rfl

theorem mem_edges {e : Edge} : e ∈ g.edges ↔
    ∃ n u, u ∈ g.neighbors n ∧ Forward (n, u) ∧ e = Edge.between n u := by
  simp only [edges_eq, List.mem_map, List.mem_filter, decide_eq_true_eq, Prod.exists, mem_arcs,
    and_assoc, eq_comm (a := e)]

/-- An edge is listed at its first end, and its second end is the neighbour. -/
theorem neighbor_of_mem_edges {e : Edge} (h : e ∈ g.edges) : e.snd ∈ g.neighbors e.fst := by
  obtain ⟨n, u, hu, hforward, rfl⟩ := mem_edges.1 h
  unfold Forward at hforward
  unfold Edge.between at hforward ⊢
  split_ifs with hle
  · exact hu
  · rw [if_neg hle] at hforward
    obtain rfl : u = n := hforward
    exact hu

/-- Where lists are symmetric, the edge of each entry is listed, at one of its ends. -/
theorem between_mem_edges (hsymm : ∀ {n u}, u ∈ g.neighbors n → n ∈ g.neighbors u)
    (hu : u ∈ g.neighbors n) : Edge.between n u ∈ g.edges := by
  by_cases hforward : Forward (n, u)
  · exact mem_edges.2 ⟨n, u, hu, hforward, rfl⟩
  · have hne : n ≠ u := by
      rintro rfl
      simp [Forward, Edge.between] at hforward
    exact mem_edges.2 ⟨u, n, hsymm hu, (Edge.fst_between_swap hne).2 hforward, Edge.between_comm⟩

namespace IsSimple

theorem nodup_arcs (hg : g.IsSimple) : g.arcs.Nodup := by
  unfold arcs
  rw [List.nodup_flatMap]
  constructor
  · rintro ⟨n, entry⟩ hentry
    have hneighbors : g.neighbors n = entry.neighbors := by
      simp [neighbors, Arena.mem_entries.1 hentry]
    have hnodup : entry.neighbors.Nodup := hneighbors ▸ hg.nodup n
    exact hnodup.map fun _ _ h => (Prod.mk.inj h).2
  · have hkeys : g.nodes.entries.Pairwise fun e e' => e.1 ≠ e'.1 :=
      List.pairwise_map.1 g.nodes.nodup_keys
    refine hkeys.imp fun {e e'} hne => ?_
    simp only [Function.onFun, List.disjoint_left, List.mem_map, not_exists, not_and]
    rintro _ ⟨u, -, rfl⟩ u' - heq
    exact hne (Prod.mk.inj heq).1.symm

/-- Each edge is listed, at one of its ends. -/
theorem mem_edges_iff (hg : g.IsSimple) {e : Edge} :
    e ∈ g.edges ↔ ∃ n u, u ∈ g.neighbors n ∧ e = Edge.between n u := by
  rw [mem_edges]
  constructor
  · rintro ⟨n, u, hu, -, rfl⟩
    exact ⟨n, u, hu, rfl⟩
  · rintro ⟨n, u, hu, rfl⟩
    exact mem_edges.1 (between_mem_edges hg.symm hu)

/-- No edge is listed twice, not even with its ends swapped. -/
theorem nodup_ends (hg : g.IsSimple) : (g.edges.map Edge.ends).Nodup := by
  rw [edges_eq, List.map_map]
  apply (hg.nodup_arcs.filter _).map_on
  rintro ⟨a, b⟩ hab ⟨c, d⟩ hcd heq
  simp only [List.mem_filter, decide_eq_true_eq] at hab hcd
  simp only [Function.comp_apply, Edge.ends_between, Sym2.eq_iff] at heq
  rcases heq with ⟨rfl, rfl⟩ | ⟨rfl, rfl⟩
  · rfl
  · -- both arcs of one edge would start at its first end
    have hfst : a = b := hab.2.symm.trans ((congrArg Edge.fst Edge.between_comm).trans hcd.2)
    rw [hfst]

theorem mem_ends_iff (hg : g.IsSimple) : s(u, v) ∈ g.edges.map Edge.ends ↔ v ∈ g.neighbors u := by
  simp only [List.mem_map, hg.mem_edges_iff]
  constructor
  · rintro ⟨_, ⟨a, b, hb, rfl⟩, heq⟩
    rw [Edge.ends_between, Sym2.eq_iff] at heq
    rcases heq with ⟨rfl, rfl⟩ | ⟨rfl, rfl⟩
    · exact hb
    · exact hg.symm hb
  · intro hv
    exact ⟨_, ⟨u, v, hv, rfl⟩, Edge.ends_between u v⟩

/-- Turning the arcs around swaps those that are forward with those that are not. -/
theorem swap_backward_perm (hg : g.IsSimple) :
    ((g.arcs.filter (¬ Forward ·)).map Prod.swap).Perm (g.arcs.filter (Forward ·)) := by
  have hnodup : ((g.arcs.filter (¬ Forward ·)).map Prod.swap).Nodup :=
    (hg.nodup_arcs.filter _).map Prod.swap_injective
  refine (List.perm_ext_iff_of_nodup hnodup (hg.nodup_arcs.filter _)).2 ?_
  rintro ⟨a, b⟩
  simp only [List.mem_map, List.mem_filter, decide_eq_true_eq, Prod.exists, Prod.swap_prod_mk,
    Prod.mk.injEq, mem_arcs]
  constructor
  · rintro ⟨b, a, ⟨ha, hbackward⟩, rfl, rfl⟩
    have hne : b ≠ a := by
      rintro rfl
      exact hg.irrefl b ha
    exact ⟨hg.symm ha, (Edge.fst_between_swap hne).2 hbackward⟩
  · rintro ⟨hb, hforward⟩
    have hne : b ≠ a := by
      rintro rfl
      exact hg.irrefl b hb
    exact ⟨b, a, ⟨hg.symm hb, (Edge.fst_between_swap hne).1 hforward⟩, rfl, rfl⟩

/-- Half of the arcs are forward. -/
theorem numberOfEdges_eq (hg : g.IsSimple) : g.numberOfEdges = g.edges.length := by
  have hsplit : g.arcs.length =
      (g.arcs.filter (Forward ·)).length + (g.arcs.filter (¬ Forward ·)).length := by
    simpa using List.length_eq_length_filter_add (l := g.arcs) (Forward ·)
  have hback := hg.swap_backward_perm.length_eq
  rw [List.length_map] at hback
  have hedges : g.edges.length = (g.arcs.filter (Forward ·)).length := by
    rw [edges_eq, List.length_map]
  rw [numberOfEdges, ← length_arcs]
  omega

end IsSimple

end Graph

end WeightPolyhedron
