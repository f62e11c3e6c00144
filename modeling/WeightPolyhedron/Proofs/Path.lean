import WeightPolyhedron.Proofs.Audit
import WeightPolyhedron.Proofs.Region
import Mathlib.Data.List.DropRight

/-!
Meshes over two objectives as paths. Along a path each node shares one facet with the node before
and one with the node after it, from the side `0 ≤ w₀` of the simplex to the side `0 ≤ w₁`. A point
cuts away a piece of the path and puts two nodes in its place, which have the facet of the point in
common.
-/

namespace WeightPolyhedron

variable {α : Type} {m m' : Mesh α} {before i : FacetId}
  {l l₁ l₂ front mid back steps : List (NodeKey × FacetId)} {n k u : NodeKey} {v w : Vertex α}
  {a b c : FacetId} {bound : Nat}

namespace Mesh

def OnFacet (m : Mesh α) (n : NodeKey) (i : FacetId) : Prop :=
  ∃ v, m.vertex? n = some v ∧ i ∈ v.facetSet

theorem onFacet_iff (hv : m.vertex? n = some v) : m.OnFacet n i ↔ i ∈ v.facetSet := by
  simp [OnFacet, hv]

theorem contains_of_onFacet (h : m.OnFacet n i) : m.graph.contains n := by
  obtain ⟨v, hv, -⟩ := h
  exact contains_of_vertex? hv

/-- The nodes stand one after the other. Each is on the facet that is listed with it and on the one
before that, and on no other facet. -/
def IsChain (m : Mesh α) (before : FacetId) : List (NodeKey × FacetId) → Prop
  | [] => True
  | (n, after) :: rest => (∀ i, m.OnFacet n i ↔ i = before ∨ i = after) ∧ m.IsChain after rest

end Mesh

def chainEnd (before : FacetId) (l : List (NodeKey × FacetId)) : FacetId :=
  l.foldl (fun _ step => step.2) before

@[simp] theorem chainEnd_nil : chainEnd before [] = before := rfl

@[simp] theorem chainEnd_snoc : chainEnd before (l ++ [(n, a)]) = a := by
  simp [chainEnd]

theorem chainEnd_append : chainEnd before (l₁ ++ l₂) = chainEnd (chainEnd before l₁) l₂ := by
  simp [chainEnd]

theorem chainEnd_of_getLast? (h : l.getLast? = some (n, a)) : chainEnd before l = a := by
  obtain ⟨l, rfl⟩ := List.getLast?_eq_some_iff.1 h
  exact chainEnd_snoc

theorem chainEnd_mem_of_ne_nil (hl : l ≠ []) : chainEnd before l ∈ l.map Prod.snd := by
  obtain ⟨l', ⟨n, a⟩, rfl⟩ := (List.eq_nil_or_concat' l).resolve_left hl
  simp

theorem chainEnd_mem : chainEnd before l ∈ before :: l.map Prod.snd := by
  cases l with
  | nil => simp
  | cons step l => exact List.mem_cons_of_mem _ (chainEnd_mem_of_ne_nil (List.cons_ne_nil _ _))

/-- Labels that are distinct along a chain are so along its second part. -/
theorem nodup_chainEnd (h : (before :: (l₁ ++ l₂).map Prod.snd).Nodup) :
    (chainEnd before l₁ :: l₂.map Prod.snd).Nodup := by
  rw [List.map_append, ← List.cons_append, List.nodup_append'] at h
  exact List.nodup_cons.2 ⟨fun hmem => h.2.2 chainEnd_mem hmem, h.2.1⟩

namespace Mesh

theorem isChain_append :
    m.IsChain before (l₁ ++ l₂) ↔ m.IsChain before l₁ ∧ m.IsChain (chainEnd before l₁) l₂ := by
  induction l₁ generalizing before with
  | nil => simp [IsChain]
  | cons step l₁ ih =>
    obtain ⟨n, after⟩ := step
    show _ ∧ m.IsChain after (l₁ ++ l₂) ↔ (_ ∧ _) ∧ m.IsChain (chainEnd after l₁) l₂
    rw [ih, and_assoc]

namespace IsChain

theorem congr (h : m.IsChain before l) (heq : ∀ n ∈ l.map Prod.fst, m'.vertex? n = m.vertex? n) :
    m'.IsChain before l := by
  induction l generalizing before with
  | nil => trivial
  | cons step l ih =>
    obtain ⟨n, after⟩ := step
    obtain ⟨hn, hrest⟩ := h
    obtain ⟨hhead, htail⟩ := List.forall_mem_cons.1 heq
    refine ⟨fun i => ?_, ih hrest htail⟩
    rw [← hn, OnFacet, OnFacet, hhead]

/-- A node of a chain is on facets that are listed. -/
theorem mem_labels (h : m.IsChain before l) (hn : n ∈ l.map Prod.fst) (hi : m.OnFacet n i) :
    i ∈ before :: l.map Prod.snd := by
  induction l generalizing before with
  | nil => simp at hn
  | cons step l ih =>
    obtain ⟨k, after⟩ := step
    obtain ⟨hfacets, hrest⟩ := h
    rcases List.mem_cons.1 hn with heq | hn
    · obtain rfl : n = k := heq
      rcases (hfacets i).1 hi with rfl | rfl <;> simp
    · exact List.mem_cons_of_mem _ (ih hrest hn)

/-- All facets that are listed have a node. -/
theorem exists_onFacet (h : m.IsChain before l) (hl : l ≠ []) (hi : i ∈ before :: l.map Prod.snd) :
    ∃ n ∈ l.map Prod.fst, m.OnFacet n i := by
  induction l generalizing before with
  | nil => exact absurd rfl hl
  | cons step l ih =>
    obtain ⟨n, after⟩ := step
    obtain ⟨hfacets, hrest⟩ := h
    rcases List.mem_cons.1 hi with rfl | hi
    · exact ⟨n, List.mem_cons_self .., (hfacets i).2 (.inl rfl)⟩
    · rcases List.mem_cons.1 hi with rfl | hmem
      · exact ⟨n, List.mem_cons_self .., (hfacets i).2 (.inr rfl)⟩
      · obtain ⟨k, hk, hki⟩ := ih hrest (fun hnil => by simp [hnil] at hmem) hi
        exact ⟨k, List.mem_cons_of_mem _ hk, hki⟩

/-- Each node is on the two facets that are listed around it. -/
theorem exists_labels {k : Nat} (h : m.IsChain before l) (hn : (l.map Prod.fst)[k]? = some n) :
    ∃ a b, (before :: l.map Prod.snd)[k]? = some a ∧ (before :: l.map Prod.snd)[k + 1]? = some b ∧
      ∀ i, m.OnFacet n i ↔ i = a ∨ i = b := by
  induction l generalizing before k with
  | nil => simp at hn
  | cons step l ih =>
    obtain ⟨x, after⟩ := step
    cases k with
    | zero =>
      obtain rfl : x = n := by simpa using hn
      exact ⟨before, after, rfl, rfl, h.1⟩
    | succ k => exact ih h.2 hn

/-- Only the first node is on the facet before a chain. -/
theorem head_eq (h : m.IsChain before l) (hnew : before ∉ l.map Prod.snd)
    (hk : k ∈ l.map Prod.fst) (hi : m.OnFacet k before) : l.head?.map Prod.fst = some k := by
  cases l with
  | nil => simp at hk
  | cons step l =>
    obtain ⟨n, a⟩ := step
    rcases List.mem_cons.1 hk with rfl | hk
    · rfl
    · exact absurd (h.2.mem_labels hk hi) hnew

/-- Only the last node is on the facet at the end of a chain. -/
theorem last_eq (h : m.IsChain before l) (hlabels : (before :: l.map Prod.snd).Nodup)
    (hk : k ∈ l.map Prod.fst) (hi : m.OnFacet k (chainEnd before l)) :
    l.getLast?.map Prod.fst = some k := by
  rcases List.eq_nil_or_concat' l with rfl | ⟨l, ⟨n, a⟩, rfl⟩
  · simp at hk
  · rw [chainEnd_snoc] at hi
    rw [List.map_append, ← List.cons_append, List.nodup_append'] at hlabels
    rw [List.map_append, List.mem_append] at hk
    rcases hk with hk | hk
    · have hmem := (isChain_append.1 h).1.mem_labels hk hi
      exact absurd (List.mem_singleton_self a) (hlabels.2.2 hmem)
    · simpa using (List.mem_singleton.1 hk).symm

theorem nodup (h : m.IsChain before l) (hlabels : (before :: l.map Prod.snd).Nodup) :
    (l.map Prod.fst).Nodup := by
  induction l generalizing before with
  | nil => exact .nil
  | cons step l ih =>
    obtain ⟨n, after⟩ := step
    obtain ⟨hfacets, hrest⟩ := h
    obtain ⟨hbefore, hlabels⟩ := List.nodup_cons.1 hlabels
    refine List.nodup_cons.2 ⟨fun hn => hbefore ?_, ih hrest hlabels⟩
    exact hrest.mem_labels hn ((hfacets before).2 (.inl rfl))

end IsChain

def IsComplete (m : Mesh α) : Prop :=
  ∀ {n u v w}, m.vertex? n = some v → m.vertex? u = some w → v.isNeighbour w →
    u ∈ m.graph.neighbors n

end Mesh

namespace Mesh

/-- Over two objectives, nodes with one facet in common are joined. -/
theorem IsSound.joined_of_shared (hm : m.IsSound 2 bound) (hcomplete : m.IsComplete)
    (hn : m.OnFacet n i) (hk : m.OnFacet k i) (honly : ∀ j, m.OnFacet n j → m.OnFacet k j → j = i) :
    k ∈ m.graph.neighbors n := by
  obtain ⟨v, hv, hvi⟩ := hn
  obtain ⟨w, hw, hwi⟩ := hk
  have hshared : v.facetSet ∩ w.facetSet = {i} := by
    refine Finset.eq_singleton_iff_unique_mem.2 ⟨Finset.mem_inter.2 ⟨hvi, hwi⟩, fun j hj => ?_⟩
    rw [Finset.mem_inter] at hj
    exact honly j ⟨v, hv, hj.1⟩ ⟨w, hw, hj.2⟩
  refine hcomplete hv hw ((Vertex.isNeighbour_iff (hm.isShaped hv) (hm.isShaped hw)).2 ?_)
  rw [hshared, Finset.card_singleton]

/-- Neighbours have one facet in common. -/
theorem IsSound.exists_shared_of_isNeighbour (hm : m.IsSound 2 bound) (hv : m.vertex? n = some v)
    (hw : m.vertex? u = some w) (hvw : v.isNeighbour w) :
    ∃ i, m.OnFacet n i ∧ m.OnFacet u i ∧ ∀ j, m.OnFacet n j → m.OnFacet u j → j = i := by
  have hcard := (Vertex.isNeighbour_iff (hm.isShaped hv) (hm.isShaped hw)).1 hvw
  obtain ⟨i, hi⟩ := Finset.card_eq_one.1 (show (v.facetSet ∩ w.facetSet).card = 1 by omega)
  have hmem (j : FacetId) : m.OnFacet n j ∧ m.OnFacet u j ↔ j = i := by
    rw [onFacet_iff hv, onFacet_iff hw, ← Finset.mem_inter, hi, Finset.mem_singleton]
  obtain ⟨hni, hui⟩ := (hmem i).2 rfl
  exact ⟨i, hni, hui, fun j hn hu => (hmem j).1 ⟨hn, hu⟩⟩

theorem IsSound.exists_shared (hm : m.IsSound 2 bound) (hedge : u ∈ m.graph.neighbors n) :
    ∃ i, m.OnFacet n i ∧ m.OnFacet u i ∧ ∀ j, m.OnFacet n j → m.OnFacet u j → j = i := by
  obtain ⟨v, hv, -⟩ := hm.stored (Graph.contains_of_mem_neighbors hedge)
  obtain ⟨w, hw, -⟩ := hm.stored (hm.simple.contains_neighbor hedge)
  exact hm.exists_shared_of_isNeighbour hv hw (hm.adjacent hedge hv hw)

/-- Nodes that stand next to each other in a chain are joined. -/
theorem IsChain.joined (h : m.IsChain before ((n, a) :: (k, b) :: l)) (hm : m.IsSound 2 bound)
    (hcomplete : m.IsComplete) (hlabels : (before :: a :: b :: l.map Prod.snd).Nodup) :
    k ∈ m.graph.neighbors n := by
  obtain ⟨hn, hk, -⟩ := h
  simp only [List.nodup_cons, List.mem_cons, not_or] at hlabels
  refine hm.joined_of_shared hcomplete ((hn a).2 (.inr rfl)) ((hk a).2 (.inl rfl))
    fun j hnj hkj => ?_
  rcases (hn j).1 hnj with rfl | rfl
  · rcases (hk j).1 hkj with rfl | rfl
    exacts [rfl, absurd rfl hlabels.1.2.1]
  · rfl

end Mesh

/-- Around an element of a list there is a longest run of elements that satisfy a condition, whether
the element itself does or not. -/
theorem exists_run {β : Type} (P : β → Prop) [DecidablePred P] {xs : List β} {x : β} (hx : x ∈ xs) :
    ∃ front left right back, xs = front ++ (left ++ x :: right) ++ back ∧ (∀ y ∈ left, P y) ∧
      (∀ y ∈ right, P y) ∧ (∀ y ∈ front.getLast?, ¬ P y) ∧ ∀ y ∈ back.head?, ¬ P y := by
  obtain ⟨s, t, rfl⟩ := List.append_of_mem hx
  refine ⟨s.rdropWhile P, s.rtakeWhile P, t.takeWhile P, t.dropWhile P, ?_, ?_, ?_, ?_, ?_⟩
  · simp only [List.append_assoc, List.cons_append, List.takeWhile_append_dropWhile]
    rw [← List.append_assoc, List.rdropWhile_append_rtakeWhile]
  · exact fun y hy => by simpa using List.mem_rtakeWhile_imp hy
  · exact fun y hy => by simpa using List.mem_takeWhile_imp hy
  · intro y hy
    have hne : s.rdropWhile P ≠ [] := by
      rintro hnil
      simp [hnil] at hy
    have hlast := List.rdropWhile_last_not (fun y => decide (P y)) s hne
    rw [List.getLast?_eq_some_getLast hne, Option.mem_some_iff] at hy
    simpa [hy] using hlast
  · intro y hy
    have hnot := List.head?_dropWhile_not (fun y => decide (P y)) t
    rw [Option.mem_def.1 hy] at hnot
    simpa using hnot

/-- A mesh over two objectives whose nodes form a path from the side `0 ≤ w₀` of the simplex, which
has the id `0`, to the side `0 ≤ w₁`, which has the id `1`. -/
structure Mesh.IsPath (m : Mesh α) (bound : Nat) (first last : NodeKey)
    (steps : List (NodeKey × FacetId)) : Prop where
  sound : m.IsSound 2 bound
  complete : m.IsComplete
  chain : m.IsChain 0 steps
  contains_iff : ∀ {n}, m.graph.contains n ↔ n ∈ steps.map Prod.fst
  labels_nodup : (0 :: steps.map Prod.snd).Nodup
  head_eq : steps.head?.map Prod.fst = some first
  last_eq : steps.getLast? = some (last, 1)
  ne : first ≠ last

namespace Mesh.IsPath

variable {first last : NodeKey} (h : m.IsPath bound first last steps)

include h

theorem nodup : (steps.map Prod.fst).Nodup := h.chain.nodup h.labels_nodup

theorem contains_first : m.graph.contains first := by
  have hhead := List.head?_map (f := Prod.fst) (l := steps) ▸ h.head_eq
  exact h.contains_iff.2 (List.mem_of_mem_head? hhead)

theorem contains_last : m.graph.contains last :=
  h.contains_iff.2 (List.mem_map_of_mem (List.mem_of_getLast? h.last_eq))

theorem lt_of_mem_labels (hi : i ∈ 0 :: steps.map Prod.snd) : i < bound := by
  have hsteps : steps ≠ [] := by
    rintro rfl
    exact nomatch h.last_eq
  obtain ⟨n, -, v, hv, hvi⟩ := h.chain.exists_onFacet hsteps hi
  exact (h.sound.isShaped hv).facets_lt i (Vertex.mem_facetSet.1 hvi)

/-- The side where the path begins has no other node. -/
theorem eq_first (hn : m.OnFacet n 0) : n = first := by
  have hmem := h.contains_iff.1 (contains_of_onFacet hn)
  have hhead := h.chain.head_eq (List.nodup_cons.1 h.labels_nodup).1 hmem hn
  exact Option.some.inj (hhead.symm.trans h.head_eq)

theorem eq_last (hn : m.OnFacet n 1) : n = last := by
  have hmem := h.contains_iff.1 (contains_of_onFacet hn)
  obtain ⟨steps', rfl⟩ := List.getLast?_eq_some_iff.1 h.last_eq
  have hlast := h.chain.last_eq h.labels_nodup hmem (chainEnd_snoc.symm ▸ hn)
  simpa using hlast.symm

/-- A facet that two nodes have in common is none of the two sides. -/
theorem two_le (hn : m.OnFacet n i) (hk : m.OnFacet k i) (hne : n ≠ k) : 2 ≤ i := by
  rw [Nat.two_le_iff]
  constructor
  · rintro rfl
    exact hne ((h.eq_first hn).trans (h.eq_first hk).symm)
  · rintro rfl
    exact hne ((h.eq_last hn).trans (h.eq_last hk).symm)

theorem onFacet_first : m.OnFacet first 0 := by
  have hhead := h.head_eq
  rw [← List.head?_map, List.head?_eq_getElem?] at hhead
  obtain ⟨a, b, ha, -, hfacets⟩ := h.chain.exists_labels hhead
  obtain rfl : 0 = a := Option.some.inj ha
  exact (hfacets 0).2 (.inl rfl)

theorem onFacet_last : m.OnFacet last 1 := by
  obtain ⟨l, rfl⟩ := List.getLast?_eq_some_iff.1 h.last_eq
  exact ((isChain_append.1 h.chain).2.1 1).2 (.inr rfl)

/-- The nodes at the ends are each on one side of the simplex, and those between them on none. -/
theorem onFacet_side_iff (hi : i < 2) :
    m.OnFacet n i ↔ (n = first ∧ i = 0) ∨ (n = last ∧ i = 1) := by
  constructor
  · intro hn
    rcases Nat.le_one_iff_eq_zero_or_eq_one.1 (Nat.lt_succ_iff.1 hi) with rfl | rfl
    exacts [.inl ⟨h.eq_first hn, rfl⟩, .inr ⟨h.eq_last hn, rfl⟩]
  · rintro (⟨rfl, rfl⟩ | ⟨rfl, rfl⟩)
    exacts [h.onFacet_first, h.onFacet_last]

/-- The facets that are listed, but for the side at the end, are those where two nodes meet. -/
theorem labels_eq : 0 :: steps.map Prod.snd = 0 :: ((steps.map Prod.snd).dropLast ++ [1]) := by
  obtain ⟨l, rfl⟩ := List.getLast?_eq_some_iff.1 h.last_eq
  simp

theorem length_eq : steps.length = (steps.map Prod.snd).dropLast.length + 1 := by
  obtain ⟨l, rfl⟩ := List.getLast?_eq_some_iff.1 h.last_eq
  simp

theorem dropLast_ne_nil : (steps.map Prod.snd).dropLast ≠ [] := by
  intro hnil
  have hlength := h.length_eq
  rw [hnil, List.length_nil] at hlength
  obtain ⟨step, rfl⟩ := List.length_eq_one_iff.1 hlength
  obtain rfl : step = (last, 1) := by simpa using h.last_eq
  exact h.ne (by simpa using h.head_eq.symm)

theorem two_le_of_mem (hi : i ∈ (steps.map Prod.snd).dropLast) : 2 ≤ i := by
  have hlabels := h.labels_eq ▸ h.labels_nodup
  rw [Nat.two_le_iff]
  constructor
  · rintro rfl
    exact (List.nodup_cons.1 hlabels).1 (List.mem_append_left _ hi)
  · rintro rfl
    exact (List.nodup_append'.1 (List.nodup_cons.1 hlabels).2).2.2 hi (List.mem_singleton_self 1)

theorem mem_of_two_le (hn : m.OnFacet n i) (hi : 2 ≤ i) : i ∈ (steps.map Prod.snd).dropLast := by
  have hmem := h.chain.mem_labels (h.contains_iff.1 (contains_of_onFacet hn)) hn
  rw [h.labels_eq, List.mem_cons, List.mem_append, List.mem_singleton] at hmem
  rcases hmem with rfl | hmem | rfl
  exacts [absurd hi (by simp), hmem, absurd hi (by simp)]

theorem labels_inj {x y : Nat} (hx : (0 :: steps.map Prod.snd)[x]? = some c)
    (hy : (0 :: steps.map Prod.snd)[y]? = some c) : x = y :=
  (List.getElem?_inj (List.getElem?_eq_some_iff.1 hx).1 h.labels_nodup).1 (hx.trans hy.symm)

/-- Nodes that stand next to each other have the facet between them in common, and no other one. -/
theorem exists_between {k : Nat} (hn : (steps.map Prod.fst)[k]? = some n)
    (hu : (steps.map Prod.fst)[k + 1]? = some u) :
    ∃ c, (steps.map Prod.snd).dropLast[k]? = some c ∧
      ∀ i, m.OnFacet n i ∧ m.OnFacet u i ↔ i = c := by
  obtain ⟨a, c, ha, hc, hna⟩ := h.chain.exists_labels hn
  obtain ⟨c', b, hc', hb, hub⟩ := h.chain.exists_labels hu
  obtain rfl : c = c' := Option.some.inj (hc.symm.trans hc')
  have hlt := (List.getElem?_eq_some_iff.1 hu).1
  refine ⟨c, ?_, fun i => ?_⟩
  · rw [List.getElem?_dropLast, if_pos (by simpa using Nat.lt_sub_of_add_lt hlt)]
    exact hc
  rw [hna, hub]
  constructor
  · rintro ⟨rfl | hic, hi⟩
    · refine hi.resolve_right fun heq => ?_
      have hindex := h.labels_inj ha (heq ▸ hb)
      omega
    · exact hic
  · exact fun hi => ⟨.inr hi, .inl hi⟩

/-- The edges are between nodes that stand next to each other. -/
theorem mem_neighbors_iff : u ∈ m.graph.neighbors n ↔ ∃ k : Nat,
    ((steps.map Prod.fst)[k]? = some n ∧ (steps.map Prod.fst)[k + 1]? = some u) ∨
      ((steps.map Prod.fst)[k]? = some u ∧ (steps.map Prod.fst)[k + 1]? = some n) := by
  have hjoined {k : Nat} {x y : NodeKey} (hx : (steps.map Prod.fst)[k]? = some x)
      (hy : (steps.map Prod.fst)[k + 1]? = some y) : y ∈ m.graph.neighbors x := by
    obtain ⟨c, -, hc⟩ := h.exists_between hx hy
    obtain ⟨hxc, hyc⟩ := (hc c).2 rfl
    exact h.sound.joined_of_shared h.complete hxc hyc fun i hi hi' => (hc i).1 ⟨hi, hi'⟩
  constructor
  · intro hedge
    obtain ⟨c, hnc, huc, -⟩ := h.sound.exists_shared hedge
    obtain ⟨x, hx⟩ := List.mem_iff_getElem?.1 (h.contains_iff.1 (contains_of_onFacet hnc))
    obtain ⟨y, hy⟩ := List.mem_iff_getElem?.1 (h.contains_iff.1 (contains_of_onFacet huc))
    obtain ⟨a, b, ha, hb, hab⟩ := h.chain.exists_labels hx
    obtain ⟨d, e, hd, he, hde⟩ := h.chain.exists_labels hy
    have hxy : x ≠ y := by
      rintro rfl
      obtain rfl := Option.some.inj (hx.symm.trans hy)
      exact h.sound.simple.irrefl n hedge
    rcases (hab c).1 hnc with rfl | rfl <;> rcases (hde c).1 huc with rfl | rfl
    · exact absurd (h.labels_inj ha hd) hxy
    · obtain rfl := h.labels_inj ha he
      exact ⟨y, .inr ⟨hy, hx⟩⟩
    · obtain rfl := h.labels_inj hb hd
      exact ⟨x, .inl ⟨hx, hy⟩⟩
    · exact absurd (Nat.succ.inj (h.labels_inj hb he)) hxy
  · rintro ⟨k, ⟨hn, hu⟩ | ⟨hu, hn⟩⟩
    exacts [hjoined hn hu, h.sound.simple.symm (hjoined hu hn)]

theorem mem_edges_iff {e : Edge} : e ∈ m.graph.edges ↔ ∃ (k : Nat) (n u : NodeKey),
    (steps.map Prod.fst)[k]? = some n ∧ (steps.map Prod.fst)[k + 1]? = some u ∧
    e = .between n u := by
  rw [h.sound.simple.mem_edges_iff]
  constructor
  · rintro ⟨n, u, hu, rfl⟩
    obtain ⟨k, ⟨hn, hu⟩ | ⟨hu, hn⟩⟩ := h.mem_neighbors_iff.1 hu
    exacts [⟨k, n, u, hn, hu, rfl⟩, ⟨k, u, n, hu, hn, Edge.between_comm⟩]
  · rintro ⟨k, n, u, hn, hu, rfl⟩
    exact ⟨n, u, h.mem_neighbors_iff.2 ⟨k, .inl ⟨hn, hu⟩⟩, rfl⟩

end Mesh.IsPath

namespace Mesh.IsPath

variable {first last : NodeKey}

theorem disjoint_front (h : m.IsPath bound first last (front ++ mid ++ back))
    (hn : n ∈ front.map Prod.fst) : n ∉ mid.map Prod.fst := by
  have hnodup := h.nodup
  rw [List.append_assoc, List.map_append, List.map_append, List.nodup_append'] at hnodup
  exact fun hmid => hnodup.2.2 hn (List.mem_append_left _ hmid)

theorem disjoint_back (h : m.IsPath bound first last (front ++ mid ++ back))
    (hn : n ∈ back.map Prod.fst) : n ∉ mid.map Prod.fst := by
  have hnodup := h.nodup
  rw [List.map_append, List.map_append, List.nodup_append'] at hnodup
  exact fun hmid => hnodup.2.2 (List.mem_append_right _ hmid) hn

end Mesh.IsPath

/-- A path in three pieces, with the facets at which they meet. The pieces in front and behind may
be empty. -/
structure Mesh.Pieces (m : Mesh α) (front : List (NodeKey × FacetId)) (a : FacetId)
    (mid : List (NodeKey × FacetId)) (b : FacetId) (back : List (NodeKey × FacetId)) : Prop where
  front_chain : m.IsChain 0 front
  front_end : chainEnd 0 front = a
  mid_chain : m.IsChain a mid
  mid_end : chainEnd a mid = b
  back_chain : m.IsChain b back
  labels_nodup : (0 :: (front ++ mid ++ back).map Prod.snd).Nodup
  mid_ne_nil : mid ≠ []

namespace Mesh.Pieces

theorem of_chain (h : m.IsChain 0 (front ++ mid ++ back))
    (hlabels : (0 :: (front ++ mid ++ back).map Prod.snd).Nodup) (hmid : mid ≠ []) :
    m.Pieces front (chainEnd 0 front) mid (chainEnd 0 (front ++ mid)) back := by
  obtain ⟨hfrontMid, hback⟩ := isChain_append.1 h
  obtain ⟨hfront, hmidChain⟩ := isChain_append.1 hfrontMid
  exact ⟨hfront, rfl, hmidChain, chainEnd_append.symm, hback, hlabels, hmid⟩

variable (h : m.Pieces front a mid b back)

include h

theorem split_nodup :
    ((0 :: front.map Prod.snd) ++ (mid.map Prod.snd ++ back.map Prod.snd)).Nodup := by
  simpa using h.labels_nodup

theorem start_mem : a ∈ 0 :: front.map Prod.snd := h.front_end ▸ chainEnd_mem

theorem stop_mem : b ∈ mid.map Prod.snd := h.mid_end ▸ chainEnd_mem_of_ne_nil h.mid_ne_nil

theorem notMem_mid (hi : i ∈ 0 :: front.map Prod.snd) : i ∉ mid.map Prod.snd := fun hm =>
  (List.nodup_append'.1 h.split_nodup).2.2 hi (List.mem_append_left _ hm)

theorem front_notMem_back (hi : i ∈ 0 :: front.map Prod.snd) : i ∉ back.map Prod.snd := fun hb =>
  (List.nodup_append'.1 h.split_nodup).2.2 hi (List.mem_append_right _ hb)

theorem mid_notMem_back (hi : i ∈ mid.map Prod.snd) : i ∉ back.map Prod.snd :=
  (List.nodup_append'.1 (List.nodup_append'.1 h.split_nodup).2.1).2.2 hi

theorem notMem_front (hi : i ∈ mid.map Prod.snd) : i ∉ 0 :: front.map Prod.snd := fun hf =>
  h.notMem_mid hf hi

theorem start_ne_stop : a ≠ b := fun heq => h.notMem_mid h.start_mem (heq ▸ h.stop_mem)

/-- Nodes of the middle and of the front have no facet in common but the one where they meet. -/
theorem eq_start (hn : n ∈ front.map Prod.fst) (hk : k ∈ mid.map Prod.fst) (hni : m.OnFacet n i)
    (hki : m.OnFacet k i) : i = a := by
  refine (List.mem_cons.1 (h.mid_chain.mem_labels hk hki)).resolve_right fun hm => ?_
  exact h.notMem_mid (h.front_chain.mem_labels hn hni) hm

theorem eq_stop (hn : n ∈ back.map Prod.fst) (hk : k ∈ mid.map Prod.fst) (hni : m.OnFacet n i)
    (hki : m.OnFacet k i) : i = b := by
  refine (List.mem_cons.1 (h.back_chain.mem_labels hn hni)).resolve_right fun hb => ?_
  rcases List.mem_cons.1 (h.mid_chain.mem_labels hk hki) with rfl | hm
  · exact h.front_notMem_back h.start_mem hb
  · exact h.mid_notMem_back hm hb

theorem front_last (hn : n ∈ front.map Prod.fst) (hi : m.OnFacet n a) :
    front.getLast?.map Prod.fst = some n :=
  h.front_chain.last_eq (List.nodup_append'.1 h.split_nodup).1 hn (h.front_end.symm ▸ hi)

theorem mid_head (hn : n ∈ mid.map Prod.fst) (hi : m.OnFacet n a) :
    mid.head?.map Prod.fst = some n :=
  h.mid_chain.head_eq (h.notMem_mid h.start_mem) hn hi

theorem mid_labels_nodup : (a :: mid.map Prod.snd).Nodup :=
  List.nodup_cons.2 ⟨h.notMem_mid h.start_mem,
    (List.nodup_append'.1 (List.nodup_append'.1 h.split_nodup).2.1).1⟩

theorem mid_last (hn : n ∈ mid.map Prod.fst) (hi : m.OnFacet n b) :
    mid.getLast?.map Prod.fst = some n :=
  h.mid_chain.last_eq h.mid_labels_nodup hn (h.mid_end.symm ▸ hi)

theorem back_head (hn : n ∈ back.map Prod.fst) (hi : m.OnFacet n b) :
    back.head?.map Prod.fst = some n :=
  h.back_chain.head_eq (h.mid_notMem_back h.stop_mem) hn hi

/-- The facet where the middle begins is on at most two nodes. -/
theorem holder_start (hk : k ∈ (front ++ mid ++ back).map Prod.fst) (ha : m.OnFacet k a) :
    front.getLast?.map Prod.fst = some k ∨ mid.head?.map Prod.fst = some k := by
  rw [List.map_append, List.map_append, List.mem_append, List.mem_append] at hk
  rcases hk with (hk | hk) | hk
  · exact .inl (h.front_last hk ha)
  · exact .inr (h.mid_head hk ha)
  · rcases List.mem_cons.1 (h.back_chain.mem_labels hk ha) with heq | hmem
    exacts [absurd heq h.start_ne_stop, absurd hmem (h.front_notMem_back h.start_mem)]

theorem holder_stop (hk : k ∈ (front ++ mid ++ back).map Prod.fst) (hb : m.OnFacet k b) :
    mid.getLast?.map Prod.fst = some k ∨ back.head?.map Prod.fst = some k := by
  rw [List.map_append, List.map_append, List.mem_append, List.mem_append] at hk
  rcases hk with (hk | hk) | hk
  · exact absurd (h.front_chain.mem_labels hk hb) (h.notMem_front h.stop_mem)
  · exact .inl (h.mid_last hk hb)
  · exact .inr (h.back_head hk hb)

end Mesh.Pieces

variable [Scalar α] {f : Facet α} {r : Region} {seed first last : NodeKey}

namespace Mesh

/-- From a node on, violated nodes of a chain are reached one after the other. -/
theorem IsChain.spreads_right (h : m.IsChain before ((n, a) :: l)) (hm : m.IsSound 2 bound)
    (hcomplete : m.IsComplete) (hlabels : (before :: a :: l.map Prod.snd).Nodup)
    (hviolated : ∀ e ∈ l, m.ViolatedAt f e.1) : ∀ k ∈ l.map Prod.fst, m.Spreads f n k := by
  induction l generalizing before n a with
  | nil => simp
  | cons step l ih =>
    obtain ⟨x, b⟩ := step
    obtain ⟨hx, hrest⟩ := List.forall_mem_cons.1 hviolated
    have hstep : m.Spreads f n x := .single ⟨h.joined hm hcomplete hlabels, hx⟩
    refine List.forall_mem_cons.2 ⟨hstep, fun k hk => ?_⟩
    exact hstep.trans (ih h.2 (List.nodup_cons.1 hlabels).2 hrest k hk)

/-- So are those before the node, backwards. -/
theorem IsChain.spreads_left (h : m.IsChain before (l ++ [(n, a)])) (hm : m.IsSound 2 bound)
    (hcomplete : m.IsComplete) (hlabels : (before :: (l ++ [(n, a)]).map Prod.snd).Nodup)
    (hviolated : ∀ e ∈ l, m.ViolatedAt f e.1) : ∀ k ∈ l.map Prod.fst, m.Spreads f n k := by
  induction l generalizing before with
  | nil => simp
  | cons step l ih =>
    obtain ⟨x, b⟩ := step
    obtain ⟨hx, hrest⟩ := List.forall_mem_cons.1 hviolated
    have ih := ih h.2 (List.nodup_cons.1 hlabels).2 hrest
    refine List.forall_mem_cons.2 ⟨?_, ih⟩
    cases l with
    | nil => exact .single ⟨hm.simple.symm (h.joined hm hcomplete hlabels), hx⟩
    | cons next l =>
      obtain ⟨y, c⟩ := next
      have hy : m.Spreads f n y := ih y (List.mem_cons_self ..)
      exact hy.tail ⟨hm.simple.symm (h.joined hm hcomplete hlabels), hx⟩

/-- The region of a facet is a piece of the path. -/
theorem IsPath.exists_pieces (h : m.IsPath bound first last steps)
    (hregion : m.violatedRegion f seed = .ok r) : ∃ front a mid b back,
      steps = front ++ mid ++ back ∧ m.Pieces front a mid b back ∧
        ∀ {n}, n ∈ r.nodes ↔ n ∈ mid.map Prod.fst := by
  have hr := Mesh.isAround_of_violatedRegion hregion
  obtain ⟨⟨x, c⟩, hseed, rfl⟩ := List.mem_map.1 (h.contains_iff.1 (hr.contains hr.seed_mem))
  obtain ⟨front, left, right, back, rfl, hleft, hright, hfront, hback⟩ :=
    exists_run (fun e : NodeKey × FacetId => m.ViolatedAt f e.1) hseed
  have hpieces := Pieces.of_chain h.chain h.labels_nodup (by simp)
  refine ⟨front, _, _, _, back, rfl, hpieces, ?_⟩
  intro n
  rw [Mesh.mem_violatedRegion_iff hregion]
  constructor
  · intro hs
    induction hs with
    | refl => simp
    | @tail z y hs hstep hz =>
      obtain ⟨hedge, hviolated⟩ := hstep
      obtain ⟨i, hzi, hyi, -⟩ := h.sound.exists_shared hedge
      have hy := h.contains_iff.1 (h.sound.simple.contains_neighbor hedge)
      rw [List.map_append, List.map_append, List.mem_append, List.mem_append] at hy
      rcases hy with (hy | hy) | hy
      · obtain rfl := hpieces.eq_start hy hz hyi hzi
        obtain ⟨e, he, rfl⟩ := Option.map_eq_some_iff.1 (hpieces.front_last hy hyi)
        exact absurd hviolated (hfront e he)
      · exact hy
      · obtain rfl := hpieces.eq_stop hy hz hyi hzi
        obtain ⟨e, he, rfl⟩ := Option.map_eq_some_iff.1 (hpieces.back_head hy hyi)
        exact absurd hviolated (hback e he)
  · intro hn
    have hlabels := hpieces.mid_labels_nodup
    obtain ⟨hleftChain, hrightChain⟩ := isChain_append.1 hpieces.mid_chain
    rw [List.map_append, List.mem_append, List.map_cons, List.mem_cons] at hn
    rcases hn with hn | rfl | hn
    · have hchain : m.IsChain (chainEnd 0 front) (left ++ [(x, c)]) :=
        isChain_append.2 ⟨hleftChain, hrightChain.1, trivial⟩
      rw [List.append_cons, List.map_append, ← List.cons_append, List.nodup_append'] at hlabels
      exact hchain.spreads_left h.sound h.complete hlabels.1 hleft n hn
    · exact .refl
    · exact hrightChain.spreads_right h.sound h.complete (nodup_chainEnd hlabels) hright n hn

end Mesh

end WeightPolyhedron
