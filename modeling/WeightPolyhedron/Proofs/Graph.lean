import WeightPolyhedron.Graph
import Mathlib.Data.List.Nodup
import Mathlib.Data.List.Perm.Subperm

/-!
The graph of a mesh as a simple undirected graph. Each operation is described by what it does to the
set of nodes and to the lists of neighbours, and each keeps the graph simple.
-/

namespace WeightPolyhedron

theorem pairwise_zipIdx {β : Type} (l : List β) : l.zipIdx.Pairwise fun a b => a.2 < b.2 := by
  rw [← List.pairwise_map (f := Prod.snd), List.zipIdx_map_snd]
  exact List.pairwise_lt_range'

namespace Arena

variable {role : Role} {β : Type} {a b : Arena role β}

/-- Entries are listed by slot. -/
theorem pairwise_slot (a : Arena role β) : a.keys.Pairwise fun k l => k.slot < l.slot := by
  rw [keys, List.pairwise_map]
  refine List.pairwise_filterMap.2 ((pairwise_zipIdx _).imp ?_)
  rintro ⟨s, i⟩ ⟨t, j⟩ hij _ hs _ ht
  obtain ⟨v, -, rfl⟩ := Option.map_eq_some_iff.1 hs
  obtain ⟨w, -, rfl⟩ := Option.map_eq_some_iff.1 ht
  exact hij

theorem nodup_keys (a : Arena role β) : a.keys.Nodup := by
  refine a.pairwise_slot.imp ?_
  rintro k _ hlt rfl
  exact Nat.lt_irrefl _ hlt

theorem length_keys (a : Arena role β) : a.keys.length = a.size := by
  rw [keys, size, List.length_map]

theorem length_le_size {l : List (Key role)} (hnodup : l.Nodup) (h : ∀ k ∈ l, a.contains k) :
    l.length ≤ a.size := by
  rw [← a.length_keys]
  exact (hnodup.subperm fun k hk => mem_keys.2 (h k hk)).length_le

theorem size_le (h : ∀ {k}, a.contains k → b.contains k) : a.size ≤ b.size := by
  rw [← a.length_keys]
  exact length_le_size a.nodup_keys fun k hk => h (mem_keys.1 hk)

end Arena

namespace Graph

/-- Edges are listed at both ends and once, none is a loop, and marks are on nodes of the graph. -/
structure IsSimple (g : Graph) : Prop where
  symm : ∀ {n u}, u ∈ g.neighbors n → n ∈ g.neighbors u
  irrefl : ∀ n, n ∉ g.neighbors n
  nodup : ∀ n, (g.neighbors n).Nodup
  untested_contains : ∀ {n}, n ∈ g.untested → g.contains n
  untested_nodup : g.untested.Nodup
  lastTaken_contains : ∀ {n}, g.lastTaken = some n → g.contains n

variable {g : Graph} {n u v k : NodeKey}

theorem contains_iff : g.contains n ↔ ∃ key, g.vertexOf? n = some key := by
  simp [contains, Arena.contains, vertexOf?, Option.isSome_iff_exists]

theorem contains_of_mem_neighbors (h : u ∈ g.neighbors n) : g.contains n := by
  unfold neighbors at h
  cases hn : g.nodes.get? n with
  | none => simp [hn] at h
  | some entry => simp [contains, Arena.contains, hn]

theorem neighbors_of_not_contains (h : ¬ g.contains n) : g.neighbors n = [] :=
  List.eq_nil_iff_forall_not_mem.2 fun _ hu => h (contains_of_mem_neighbors hu)

theorem IsSimple.contains_neighbor (h : g.IsSimple) (hu : u ∈ g.neighbors n) : g.contains u :=
  contains_of_mem_neighbors (h.symm hu)

theorem isSimple_empty : empty.IsSimple := by
  constructor <;> simp [empty, neighbors]

theorem mem_insertKey {l : List NodeKey} : k ∈ insertKey n l ↔ k = n ∨ k ∈ l := by
  induction l with
  | nil => simp [insertKey]
  | cons a l ih =>
    unfold insertKey
    split_ifs with h
    · simp [h]
    · simp
    · simp only [List.mem_cons, ih]
      tauto

theorem nodup_insertKey {l : List NodeKey} (hl : l.Nodup) (hn : n ∉ l) : (insertKey n l).Nodup := by
  induction l with
  | nil => simp [insertKey]
  | cons a l ih =>
    have ha := List.nodup_cons.1 hl
    have hna : n ≠ a ∧ n ∉ l := by simpa using hn
    unfold insertKey
    split_ifs
    · exact hl
    · exact List.nodup_cons.2 ⟨hn, hl⟩
    · refine List.nodup_cons.2 ⟨?_, ih ha.2 hna.2⟩
      rw [mem_insertKey]
      rintro (rfl | h)
      exacts [hna.1 rfl, ha.1 h]

theorem get?_foldl_unlist (l : List NodeKey) (nodes : Arena .node Node) (k : NodeKey) :
    (l.foldl (unlist · n ·) nodes).get? k =
      if k ∈ l then
        (nodes.get? k).map fun e => { e with neighbors := e.neighbors.filter (· ≠ n) }
      else
        nodes.get? k := by
  induction l generalizing nodes with
  | nil => simp
  | cons a l ih =>
    rw [List.foldl_cons, ih, unlist, Arena.get?_modify]
    by_cases hka : k = a
    · subst hka
      cases nodes.get? k <;> simp [List.filter_filter]
    · simp [hka]

/-- Where the lists are symmetric, it does not matter whether a node is taken off the lists that
hold it or off all lists. -/
theorem IsSimple.filter_neighbors (h : g.IsSimple) (hk : k ∉ g.neighbors n) :
    (g.neighbors k).filter (· ≠ n) = g.neighbors k :=
  List.filter_eq_self.2 fun a ha => by
    have hne : a ≠ n := by
      rintro rfl
      exact hk (h.symm ha)
    simpa using hne

@[simp] theorem addNode_fst (g : Graph) (key : VertexKey) (b : Bool) :
    (g.addNode key b).1 = g.nodes.nextKey := by
  simp [addNode]

@[simp] theorem addNode_lastTaken (g : Graph) (key : VertexKey) (b : Bool) :
    (g.addNode key b).2.lastTaken = g.lastTaken := rfl

theorem vertexOf?_addNode (g : Graph) (key : VertexKey) (b : Bool) (k : NodeKey) :
    (g.addNode key b).2.vertexOf? k = if k = g.nodes.nextKey then some key else g.vertexOf? k := by
  simp only [addNode, vertexOf?, Arena.get?_insert]
  split_ifs <;> rfl

theorem not_contains_nextKey (g : Graph) : ¬ g.contains g.nodes.nextKey := by
  simp [contains, Arena.contains]

@[simp] theorem neighbors_addNode (g : Graph) (key : VertexKey) (b : Bool) (k : NodeKey) :
    (g.addNode key b).2.neighbors k = g.neighbors k := by
  simp only [addNode, neighbors, Arena.get?_insert]
  split_ifs with h <;> simp [h]

theorem contains_addNode (g : Graph) (key : VertexKey) (b : Bool) (k : NodeKey) :
    (g.addNode key b).2.contains k ↔ k = g.nodes.nextKey ∨ g.contains k := by
  simp only [contains_iff, vertexOf?_addNode]
  split_ifs with h <;> simp [h]

theorem untested_addNode (g : Graph) (key : VertexKey) (b : Bool) :
    (g.addNode key b).2.untested =
      if b then insertKey g.nodes.nextKey g.untested else g.untested := by
  simp [addNode]

theorem mem_untested_addNode (g : Graph) (key : VertexKey) (b : Bool) (k : NodeKey) :
    k ∈ (g.addNode key b).2.untested ↔ (b ∧ k = g.nodes.nextKey) ∨ k ∈ g.untested := by
  rw [untested_addNode]
  cases b <;> simp [mem_insertKey]

theorem IsSimple.addNode (h : g.IsSimple) (key : VertexKey) (b : Bool) :
    (g.addNode key b).2.IsSimple where
  symm hu := by simpa using h.symm (by simpa using hu)
  irrefl := by simpa using h.irrefl
  nodup := by simpa using h.nodup
  untested_contains hn := by
    rw [mem_untested_addNode] at hn
    exact (contains_addNode ..).2 (hn.imp And.right h.untested_contains)
  untested_nodup := by
    rw [untested_addNode]
    split_ifs
    · exact nodup_insertKey h.untested_nodup fun hn =>
        g.not_contains_nextKey (h.untested_contains hn)
    · exact h.untested_nodup
  lastTaken_contains hn := (contains_addNode ..).2 (.inr (h.lastTaken_contains hn))

theorem vertexOf?_removeNode (g : Graph) (n k : NodeKey) :
    (g.removeNode n).2.vertexOf? k = if k = n then none else g.vertexOf? k := by
  unfold removeNode
  split
  · next h =>
    split_ifs with hk
    · simp [vertexOf?, hk, h]
    · rfl
  · next entry h =>
    simp only [vertexOf?, get?_foldl_unlist, Arena.get?_erase]
    by_cases hk : k = n
    · simp [hk]
    · simp only [hk, if_false]
      split_ifs
      · cases g.nodes.get? k <;> rfl
      · rfl

theorem contains_removeNode (g : Graph) (n k : NodeKey) :
    (g.removeNode n).2.contains k ↔ k ≠ n ∧ g.contains k := by
  simp only [contains_iff, vertexOf?_removeNode]
  split_ifs with h <;> simp [h]

theorem removeNode_fst (g : Graph) (n : NodeKey) : (g.removeNode n).1 = g.vertexOf? n := by
  unfold removeNode vertexOf?
  split <;> simp [*]

theorem removeNode_of_not_contains (h : ¬ g.contains n) : (g.removeNode n).2 = g := by
  have hn : g.nodes.get? n = none := by simpa [contains, Arena.contains] using h
  unfold removeNode
  split
  · rfl
  · next he => simp [he] at hn

theorem IsSimple.neighbors_removeNode (h : g.IsSimple) (n k : NodeKey) :
    (g.removeNode n).2.neighbors k = if k = n then [] else (g.neighbors k).filter (· ≠ n) := by
  by_cases hk : k = n
  · rw [if_pos hk]
    apply neighbors_of_not_contains
    rw [contains_removeNode]
    exact fun hc => hc.1 hk
  rw [if_neg hk]
  by_cases hkn : k ∈ g.neighbors n
  · unfold removeNode
    split
    · next hn => simp [neighbors, hn] at hkn
    · next entry hn =>
      have hmem : k ∈ entry.neighbors := by simpa [neighbors, hn] using hkn
      simp only [neighbors, get?_foldl_unlist, Arena.get?_erase, hk, if_false, hmem, if_true]
      cases g.nodes.get? k <;> rfl
  · rw [h.filter_neighbors hkn]
    unfold removeNode
    split
    · rfl
    · next entry hn =>
      have hmem : k ∉ entry.neighbors := by simpa [neighbors, hn] using hkn
      simp only [neighbors, get?_foldl_unlist, Arena.get?_erase, hk, if_false, hmem]

theorem IsSimple.mem_neighbors_removeNode (h : g.IsSimple) :
    u ∈ (g.removeNode n).2.neighbors k ↔ u ∈ g.neighbors k ∧ k ≠ n ∧ u ≠ n := by
  rw [h.neighbors_removeNode]
  split_ifs with hk <;> simp [hk]

theorem untested_removeNode (h : g.contains n) :
    (g.removeNode n).2.untested = g.untested.erase n := by
  unfold removeNode
  split
  · next hn => simp [contains, Arena.contains, hn] at h
  · rfl

theorem lastTaken_removeNode (h : g.contains n) :
    (g.removeNode n).2.lastTaken = if g.lastTaken = some n then none else g.lastTaken := by
  unfold removeNode
  split
  · next hn => simp [contains, Arena.contains, hn] at h
  · rfl

theorem IsSimple.removeNode (h : g.IsSimple) (n : NodeKey) : (g.removeNode n).2.IsSimple := by
  by_cases hn : g.contains n
  · refine ⟨?_, ?_, ?_, ?_, ?_, ?_⟩
    · intro k u hu
      rw [h.mem_neighbors_removeNode] at hu ⊢
      exact ⟨h.symm hu.1, hu.2.2, hu.2.1⟩
    · intro k hk
      exact h.irrefl k (h.mem_neighbors_removeNode.1 hk).1
    · intro k
      rw [h.neighbors_removeNode]
      split_ifs
      · exact .nil
      · exact (h.nodup k).filter _
    · intro k hk
      rw [untested_removeNode hn, h.untested_nodup.mem_erase_iff] at hk
      exact (contains_removeNode ..).2 ⟨hk.1, h.untested_contains hk.2⟩
    · rw [untested_removeNode hn]
      exact h.untested_nodup.erase n
    · intro k hk
      rw [lastTaken_removeNode hn] at hk
      split_ifs at hk with hl
      refine (contains_removeNode ..).2 ⟨?_, h.lastTaken_contains hk⟩
      rintro rfl
      exact hl hk
  · rwa [removeNode_of_not_contains hn]

@[simp] theorem addEdge_untested (g : Graph) (u v : NodeKey) :
    (g.addEdge u v).2.untested = g.untested := by
  unfold addEdge
  split_ifs <;> rfl

@[simp] theorem addEdge_lastTaken (g : Graph) (u v : NodeKey) :
    (g.addEdge u v).2.lastTaken = g.lastTaken := by
  unfold addEdge
  split_ifs <;> rfl

@[simp] theorem vertexOf?_addEdge (g : Graph) (u v k : NodeKey) :
    (g.addEdge u v).2.vertexOf? k = g.vertexOf? k := by
  unfold addEdge
  split_ifs
  · rfl
  · simp only [vertexOf?, Arena.get?_modify]
    split_ifs with h₁ h₂ h₃
    · subst h₁ h₂
      cases g.nodes.get? k <;> rfl
    · subst h₁
      cases g.nodes.get? k <;> rfl
    · subst h₃
      cases g.nodes.get? k <;> rfl
    · rfl

@[simp] theorem contains_addEdge (g : Graph) (u v k : NodeKey) :
    (g.addEdge u v).2.contains k ↔ g.contains k := by
  simp [contains_iff]

/-- The condition under which two nodes are joined. -/
theorem addEdge_fst_iff :
    (g.addEdge u v).1 ↔ u ≠ v ∧ g.contains u ∧ g.contains v ∧ v ∉ g.neighbors u := by
  unfold addEdge
  split_ifs with h
  · simp only [hasEdge, Bool.or_eq_true, decide_eq_true_eq, Bool.not_eq_true',
      List.contains_eq_mem] at h
    simp only [false_iff, not_and, not_not]
    grind
  · simpa [hasEdge, and_assoc] using h

theorem addEdge_of_not_fst (h : ¬ (g.addEdge u v).1) : (g.addEdge u v).2 = g := by
  unfold addEdge at h ⊢
  split_ifs with hc
  · rfl
  · simp [hc] at h

theorem neighbors_addEdge (h : (g.addEdge u v).1) (k : NodeKey) :
    (g.addEdge u v).2.neighbors k =
      if k = v then g.neighbors v ++ [u] else if k = u then g.neighbors u ++ [v]
      else g.neighbors k := by
  obtain ⟨huv, hu, hv, hedge⟩ := addEdge_fst_iff.1 h
  obtain ⟨eu, heu⟩ : ∃ e, g.nodes.get? u = some e := by
    simpa [contains, Arena.contains, Option.isSome_iff_exists] using hu
  obtain ⟨ev, hev⟩ : ∃ e, g.nodes.get? v = some e := by
    simpa [contains, Arena.contains, Option.isSome_iff_exists] using hv
  have hcond : (decide (u = v) || !g.contains u || !g.contains v || g.hasEdge u v) = false := by
    simp [huv, hu, hv, hasEdge, hedge]
  unfold addEdge
  rw [hcond]
  simp only [Bool.false_eq_true, if_false, neighbors, Arena.get?_modify]
  by_cases hkv : k = v
  · subst hkv
    simp [Ne.symm huv, hev]
  · by_cases hku : k = u
    · subst hku
      simp [hkv, heu]
    · simp [hkv, hku]

theorem mem_neighbors_addEdge {a b : NodeKey} :
    b ∈ (g.addEdge u v).2.neighbors a ↔ b ∈ g.neighbors a ∨
      ((g.addEdge u v).1 ∧ ((a = u ∧ b = v) ∨ (a = v ∧ b = u))) := by
  by_cases h : (g.addEdge u v).1
  · have huv := (addEdge_fst_iff.1 h).1
    rw [neighbors_addEdge h]
    by_cases hav : a = v
    · subst hav
      simp [h, Ne.symm huv]
    · by_cases hau : a = u
      · subst hau
        simp [h, hav]
      · simp [h, hav, hau]
  · rw [addEdge_of_not_fst h]
    simp [h]

theorem IsSimple.addEdge (h : g.IsSimple) (u v : NodeKey) : (g.addEdge u v).2.IsSimple := by
  by_cases he : (g.addEdge u v).1
  · obtain ⟨huv, -, -, hedge⟩ := addEdge_fst_iff.1 he
    refine ⟨?_, ?_, ?_, ?_, ?_, ?_⟩
    · intro a b hb
      rw [mem_neighbors_addEdge] at hb ⊢
      exact hb.imp h.symm fun hb => ⟨hb.1, hb.2.symm.imp And.symm And.symm⟩
    · intro a ha
      rw [mem_neighbors_addEdge] at ha
      rcases ha with ha | ⟨-, ⟨rfl, e⟩ | ⟨rfl, e⟩⟩
      exacts [h.irrefl a ha, huv e, huv e.symm]
    · intro k
      rw [neighbors_addEdge he]
      have hvu : u ∉ g.neighbors v := fun hu => hedge (h.symm hu)
      split_ifs
      · exact (h.nodup v).append (List.nodup_singleton u) (by simpa using hvu)
      · exact (h.nodup u).append (List.nodup_singleton v) (by simpa using hedge)
      · exact h.nodup k
    · intro k hk
      rw [addEdge_untested] at hk
      exact (contains_addEdge ..).2 (h.untested_contains hk)
    · simpa using h.untested_nodup
    · intro k hk
      rw [addEdge_lastTaken] at hk
      exact (contains_addEdge ..).2 (h.lastTaken_contains hk)
  · rwa [addEdge_of_not_fst he]

@[simp] theorem vertexOf?_clearEdges (g : Graph) (n k : NodeKey) :
    (g.clearEdges n).vertexOf? k = g.vertexOf? k := by
  simp only [clearEdges, vertexOf?, get?_foldl_unlist, Arena.get?_modify]
  by_cases hk : k = n
  · subst hk
    split_ifs <;> cases g.nodes.get? k <;> rfl
  · simp only [hk, if_false]
    split_ifs
    · cases g.nodes.get? k <;> rfl
    · rfl

@[simp] theorem contains_clearEdges (g : Graph) (n k : NodeKey) :
    (g.clearEdges n).contains k ↔ g.contains k := by
  simp [contains_iff]

theorem IsSimple.neighbors_clearEdges (h : g.IsSimple) (n k : NodeKey) :
    (g.clearEdges n).neighbors k = if k = n then [] else (g.neighbors k).filter (· ≠ n) := by
  simp only [clearEdges, neighbors, get?_foldl_unlist, Arena.get?_modify]
  by_cases hk : k = n
  · subst hk
    simp only [if_true]
    split_ifs <;> cases g.nodes.get? k <;> rfl
  · simp only [hk, if_false]
    by_cases hkn : k ∈ g.neighbors n
    · have hkn' : k ∈ ((g.nodes.get? n).map (·.neighbors)).getD [] := hkn
      rw [if_pos hkn']
      cases g.nodes.get? k <;> rfl
    · have hkn' : k ∉ ((g.nodes.get? n).map (·.neighbors)).getD [] := hkn
      rw [if_neg hkn']
      exact (h.filter_neighbors hkn).symm

theorem IsSimple.mem_neighbors_clearEdges (h : g.IsSimple) :
    u ∈ (g.clearEdges n).neighbors k ↔ u ∈ g.neighbors k ∧ k ≠ n ∧ u ≠ n := by
  rw [h.neighbors_clearEdges]
  split_ifs with hk <;> simp [hk]

theorem IsSimple.clearEdges (h : g.IsSimple) (n : NodeKey) : (g.clearEdges n).IsSimple where
  symm hu := by
    rw [h.mem_neighbors_clearEdges] at hu ⊢
    exact ⟨h.symm hu.1, hu.2.2, hu.2.1⟩
  irrefl k hk := h.irrefl k (h.mem_neighbors_clearEdges.1 hk).1
  nodup k := by
    rw [h.neighbors_clearEdges]
    split_ifs
    · exact .nil
    · exact (h.nodup k).filter _
  untested_contains hk := (contains_clearEdges ..).2 (h.untested_contains hk)
  untested_nodup := h.untested_nodup
  lastTaken_contains hk := (contains_clearEdges ..).2 (h.lastTaken_contains hk)

theorem mem_untested_markUntested :
    k ∈ (g.markUntested n).2.untested ↔ k ∈ g.untested ∨ (k = n ∧ g.contains n) := by
  unfold markUntested
  split_ifs with h
  · simp only [Bool.and_eq_true] at h
    simp only [mem_insertKey]
    tauto
  · simp only [isUntested, Bool.and_eq_true, Bool.not_eq_true', List.contains_eq_mem,
      decide_eq_false_iff_not, not_and, not_not] at h
    constructor
    · exact .inl
    · rintro (hk | ⟨rfl, hn⟩)
      exacts [hk, h hn]

@[simp] theorem markUntested_nodes (g : Graph) (n : NodeKey) :
    (g.markUntested n).2.nodes = g.nodes := by
  unfold markUntested
  split_ifs <;> rfl

@[simp] theorem markUntested_lastTaken (g : Graph) (n : NodeKey) :
    (g.markUntested n).2.lastTaken = g.lastTaken := by
  unfold markUntested
  split_ifs <;> rfl

/-- Only marks changed, and those that are left are on nodes of the graph. -/
theorem IsSimple.of_nodes_eq {g' : Graph} (h : g.IsSimple) (hnodes : g'.nodes = g.nodes)
    (huntested : ∀ n ∈ g'.untested, g.contains n) (hnodup : g'.untested.Nodup)
    (hlast : ∀ n, g'.lastTaken = some n → g.contains n) : g'.IsSimple := by
  have hneighbors (k) : g'.neighbors k = g.neighbors k := by simp only [neighbors, hnodes]
  have hcontains (k) : g'.contains k = g.contains k := by simp only [contains, hnodes]
  constructor
  · intro k u hu
    rw [hneighbors] at hu ⊢
    exact h.symm hu
  · simpa only [hneighbors] using h.irrefl
  · simpa only [hneighbors] using h.nodup
  · simpa only [hcontains] using fun {n} hn => huntested n hn
  · exact hnodup
  · simpa only [hcontains] using fun {n} hn => hlast n hn

theorem IsSimple.markUntested (h : g.IsSimple) (n : NodeKey) : (g.markUntested n).2.IsSimple := by
  apply h.of_nodes_eq (markUntested_nodes g n)
  · intro k hk
    rcases mem_untested_markUntested.1 hk with hk | ⟨rfl, hn⟩
    exacts [h.untested_contains hk, hn]
  · unfold Graph.markUntested
    split_ifs with hc
    · simp only [isUntested, Bool.and_eq_true, Bool.not_eq_true', List.contains_eq_mem,
        decide_eq_false_iff_not] at hc
      exact nodup_insertKey h.untested_nodup hc.2
    · exact h.untested_nodup
  · intro k hk
    exact h.lastTaken_contains (markUntested_lastTaken g n ▸ hk)

theorem IsSimple.unmarkUntested (h : g.IsSimple) (n : NodeKey) :
    (g.unmarkUntested n).2.IsSimple :=
  h.of_nodes_eq rfl (fun _ hk => h.untested_contains (List.mem_of_mem_erase hk))
    (h.untested_nodup.erase n) fun _ hk => h.lastTaken_contains hk

theorem takeUntested_eq_none (h : g.takeUntested.1 = none) :
    g.untested = [] ∧ g.takeUntested.2 = g := by
  unfold Graph.takeUntested at h ⊢
  split at h
  · next hnil =>
    rw [hnil]
    exact ⟨rfl, rfl⟩
  · cases h

/-- Some untested node is taken; nothing below depends on which one. -/
theorem takeUntested_eq_some (h : g.takeUntested.1 = some n) : n ∈ g.untested ∧
    g.takeUntested.2 = { g with untested := g.untested.erase n, lastTaken := some n } := by
  unfold Graph.takeUntested at h ⊢
  split at h
  · cases h
  · next k rest hcons =>
    obtain rfl : k = n := Option.some.inj h
    rw [hcons, List.erase_cons_head]
    exact ⟨List.mem_cons_self .., rfl⟩

theorem takeUntested_of_nil (h : g.untested = []) : g.takeUntested.2 = g := by
  cases hn : g.takeUntested.1 with
  | none => exact (takeUntested_eq_none hn).2
  | some n => exact absurd (takeUntested_eq_some hn).1 (h ▸ List.not_mem_nil)

theorem takeUntested_nodes (g : Graph) : g.takeUntested.2.nodes = g.nodes := by
  cases hn : g.takeUntested.1 with
  | none => rw [(takeUntested_eq_none hn).2]
  | some n => rw [(takeUntested_eq_some hn).2]

/-- The untested nodes alone decide which one is taken. -/
theorem takeUntested_fst_congr {g' : Graph} (h : g.untested = g'.untested) :
    g.takeUntested.1 = g'.takeUntested.1 := by
  unfold Graph.takeUntested
  rw [h]
  split <;> rfl

theorem IsSimple.takeUntested (h : g.IsSimple) : g.takeUntested.2.IsSimple := by
  cases hn : g.takeUntested.1 with
  | none => rwa [(takeUntested_eq_none hn).2]
  | some n =>
    obtain ⟨hmem, heq⟩ := takeUntested_eq_some hn
    rw [heq]
    refine h.of_nodes_eq rfl (fun k hk => ?_) (h.untested_nodup.erase n) ?_
    · exact h.untested_contains (List.mem_of_mem_erase hk)
    · rintro k ⟨⟩
      exact h.untested_contains hmem

end Graph

end WeightPolyhedron
