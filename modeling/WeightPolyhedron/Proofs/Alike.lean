import WeightPolyhedron.Mesh.Audit
import WeightPolyhedron.Mesh.Cut
import WeightPolyhedron.Proofs.Graph

/-!
Graphs that differ in the keys of their vertices alone. They hand out the same keys for nodes, list
nodes, neighbours and edges in the same order, and stay alike under each change of a graph.
-/

namespace WeightPolyhedron

variable {role : Role} {β γ : Type}

namespace Arena

def Slot.seen (view : β → γ) (s : Slot β) : Nat × Option γ := (s.generation, s.entry?.map view)

/-- The same slots are taken and vacant, and the entries look the same. -/
structure Alike (view : β → γ) (a b : Arena role β) : Prop where
  vacant_eq : a.vacant = b.vacant
  seen_eq : ∀ i : Nat, a.slots[i]?.map (Slot.seen view) = b.slots[i]?.map (Slot.seen view)

variable {view : β → γ} {a b c : Arena role β} {k : Key role} {v w : β} {f g : β → β}

theorem Alike.refl (a : Arena role β) : a.Alike view a := ⟨rfl, fun _ => rfl⟩

theorem Alike.get?_map (h : a.Alike view b) (k : Key role) :
    (a.get? k).map view = (b.get? k).map view := by
  have hseen (a : Arena role β) : (a.get? k).map view =
      (a.slots[k.slot]?.map (Slot.seen view)).bind fun s =>
        if s.1 = k.generation then s.2 else none := by
    unfold get?
    rcases a.slots[k.slot]? with _ | ⟨generation, _ | entry⟩
    · rfl
    · simp [Slot.seen]
    · simp only [Option.map_some, Option.bind_some, Slot.seen]
      split_ifs <;> rfl
  rw [hseen, hseen, h.seen_eq]

theorem Alike.contains_eq (h : a.Alike view b) (k : Key role) : a.contains k = b.contains k := by
  have hget := congrArg Option.isSome (h.get?_map k)
  rwa [Option.isSome_map, Option.isSome_map] at hget

theorem Alike.seen_toList (h : a.Alike view b) :
    a.slots.toList.map (Slot.seen view) = b.slots.toList.map (Slot.seen view) := by
  apply List.ext_getElem?
  intro i
  simpa using h.seen_eq i

theorem Alike.size_slots (h : a.Alike view b) : a.slots.size = b.slots.size := by
  simpa using congrArg List.length h.seen_toList

theorem Alike.nextKey_eq (h : a.Alike view b) : a.nextKey = b.nextKey := by
  have hgeneration (i : Nat) :
      a.slots[i]?.map (·.generation) = b.slots[i]?.map (·.generation) := by
    have hseen := congrArg (Option.map Prod.fst) (h.seen_eq i)
    rwa [Option.map_map, Option.map_map] at hseen
  simp only [nextKey, h.vacant_eq, h.size_slots, hgeneration]

/-- The entries are listed under the same keys in the same order, and look the same. -/
theorem Alike.entries_map (h : a.Alike view b) :
    a.entries.map (fun e => (e.1, view e.2)) = b.entries.map (fun e => (e.1, view e.2)) := by
  have hseen (a : Arena role β) : a.entries.map (fun e => (e.1, view e.2)) =
      (a.slots.toList.map (Slot.seen view)).zipIdx.filterMap fun (s, slot) =>
        s.2.map fun c => ((⟨slot, s.1⟩ : Key role), c) := by
    simp only [entries, List.map_filterMap, List.zipIdx_map, List.filterMap_map]
    apply List.filterMap_congr
    rintro ⟨⟨generation, entry⟩, slot⟩ -
    cases entry <;> rfl
  rw [hseen, hseen, h.seen_toList]

theorem Alike.keys_eq (h : a.Alike view b) : a.keys = b.keys := by
  have hkeys := congrArg (List.map Prod.fst) h.entries_map
  rwa [List.map_map, List.map_map] at hkeys

theorem Alike.size_eq (h : a.Alike view b) : a.size = b.size := by
  simpa [keys, size] using congrArg List.length h.keys_eq

theorem vacant_insert (a : Arena role β) (v : β) : (a.insert v).2.vacant = a.vacant.tail := by
  unfold insert
  split
  · next h => simp [h]
  · next h => simp [h]

theorem Alike.insert (h : a.Alike view b) (hvw : view v = view w) :
    (a.insert v).2.Alike view (b.insert w).2 := by
  refine ⟨by rw [vacant_insert, vacant_insert, h.vacant_eq], fun i => ?_⟩
  rw [slots_insert, slots_insert, h.nextKey_eq]
  split_ifs
  · simp [Slot.seen, hvw]
  · exact h.seen_eq i

theorem Alike.seen_set (h : a.Alike view b) {s t : Slot β} (hst : s.seen view = t.seen view)
    (j i : Nat) : (a.slots.setIfInBounds j s)[i]?.map (Slot.seen view) =
      (b.slots.setIfInBounds j t)[i]?.map (Slot.seen view) := by
  rw [Array.getElem?_setIfInBounds, Array.getElem?_setIfInBounds, h.size_slots]
  split_ifs
  · simp [hst]
  · rfl
  · exact h.seen_eq i

/-- A key has an entry in both arenas, which looks the same, or in none. -/
theorem Alike.get?_cases (h : a.Alike view b) (k : Key role) :
    (a.get? k = none ∧ b.get? k = none) ∨
      ∃ v w, a.get? k = some v ∧ b.get? k = some w ∧ view v = view w := by
  have hget := h.get?_map k
  cases ha : a.get? k <;> cases hb : b.get? k <;> simp_all

theorem modify_of_none (f : β → β) (h : a.get? k = none) : a.modify k f = a := by
  unfold Arena.modify
  split
  · next v hv => simp [h] at hv
  · rfl

theorem slots_modify (f : β → β) (h : a.get? k = some v) :
    (a.modify k f).slots = a.slots.setIfInBounds k.slot ⟨k.generation, some (f v)⟩ := by
  unfold Arena.modify
  split
  · next w hw =>
    obtain rfl := Option.some.inj (h.symm.trans hw)
    rfl
  · next hnone => simp [h] at hnone

theorem vacant_modify (a : Arena role β) (k : Key role) (f : β → β) :
    (a.modify k f).vacant = a.vacant := by
  unfold Arena.modify
  split <;> rfl

theorem Alike.modify (h : a.Alike view b) (k : Key role)
    (hfg : ∀ v w, view v = view w → view (f v) = view (g w)) :
    (a.modify k f).Alike view (b.modify k g) := by
  refine ⟨by rw [vacant_modify, vacant_modify, h.vacant_eq], fun i => ?_⟩
  rcases h.get?_cases k with ⟨ha, hb⟩ | ⟨v, w, ha, hb, hvw⟩
  · rw [modify_of_none f ha, modify_of_none g hb]
    exact h.seen_eq i
  · rw [slots_modify f ha, slots_modify g hb]
    exact h.seen_set (by simp [Slot.seen, hfg v w hvw]) k.slot i

theorem erase_of_none (h : a.get? k = none) : a.erase k = a := by
  unfold Arena.erase
  split
  · next v hv => simp [h] at hv
  · rfl

theorem slots_erase (h : a.get? k = some v) :
    (a.erase k).slots = a.slots.setIfInBounds k.slot ⟨k.generation, none⟩ := by
  unfold Arena.erase
  split
  · rfl
  · next hnone => simp [h] at hnone

theorem vacant_erase (h : a.get? k = some v) : (a.erase k).vacant = k.slot :: a.vacant := by
  unfold Arena.erase
  split
  · rfl
  · next hnone => simp [h] at hnone

theorem Alike.erase (h : a.Alike view b) (k : Key role) : (a.erase k).Alike view (b.erase k) := by
  rcases h.get?_cases k with ⟨ha, hb⟩ | ⟨v, w, ha, hb, -⟩
  · rwa [erase_of_none ha, erase_of_none hb]
  · refine ⟨by rw [vacant_erase ha, vacant_erase hb, h.vacant_eq], fun i => ?_⟩
    rw [slots_erase ha, slots_erase hb]
    exact h.seen_set rfl k.slot i

end Arena

namespace Graph

structure Alike (g g' : Graph) : Prop where
  nodes : g.nodes.Alike Node.neighbors g'.nodes
  untested_eq : g.untested = g'.untested
  lastTaken_eq : g.lastTaken = g'.lastTaken

variable {g g' : Graph}

namespace Alike

theorem refl (g : Graph) : g.Alike g := ⟨.refl _, rfl, rfl⟩

variable (h : g.Alike g')

include h

theorem contains_eq (n : NodeKey) : g.contains n = g'.contains n := h.nodes.contains_eq n

theorem neighbors_eq (n : NodeKey) : g.neighbors n = g'.neighbors n :=
  congrArg (·.getD []) (h.nodes.get?_map n)

theorem hasEdge_eq (u v : NodeKey) : g.hasEdge u v = g'.hasEdge u v := by
  rw [hasEdge, hasEdge, h.neighbors_eq]

theorem edges_eq : g.edges = g'.edges := by
  have hseen (g : Graph) : g.edges = (g.nodes.entries.map fun e => (e.1, e.2.neighbors)).flatMap
      fun e => (e.2.map (Edge.between e.1)).filter (·.fst = e.1) := by
    rw [edges, List.flatMap_map]
  rw [hseen, hseen, h.nodes.entries_map]

theorem numberOfEdges_eq : g.numberOfEdges = g'.numberOfEdges := by
  have hseen (g : Graph) : g.numberOfEdges =
      (g.nodes.entries.map fun e => (e.1, e.2.neighbors)).foldl
        (fun n e => n + e.2.length) 0 / 2 := by
    rw [numberOfEdges, List.foldl_map]
  rw [hseen, hseen, h.nodes.entries_map]

theorem addNode (k l : VertexKey) (untested : Bool) :
    (g.addNode k untested).2.Alike (g'.addNode l untested).2 := by
  have hnext := h.nodes.nextKey_eq
  refine ⟨h.nodes.insert rfl, ?_, h.lastTaken_eq⟩
  simp only [Graph.addNode, Arena.insert_fst, h.untested_eq, hnext]

theorem addEdge (u v : NodeKey) : (g.addEdge u v).2.Alike (g'.addEdge u v).2 := by
  have hlist (other : NodeKey) (x y : Node) (hxy : x.neighbors = y.neighbors) :
      x.neighbors ++ [other] = y.neighbors ++ [other] := by rw [hxy]
  unfold Graph.addEdge
  rw [h.contains_eq, h.contains_eq, h.hasEdge_eq]
  split_ifs
  · exact h
  · exact ⟨(h.nodes.modify u (hlist v)).modify v (hlist u), h.untested_eq, h.lastTaken_eq⟩

omit h in
theorem foldl_unlist {nodes nodes' : Arena .node Node} (h : nodes.Alike Node.neighbors nodes')
    (n : NodeKey) (l : List NodeKey) : (l.foldl (unlist · n ·) nodes).Alike Node.neighbors
      (l.foldl (unlist · n ·) nodes') := by
  induction l generalizing nodes nodes' with
  | nil => exact h
  | cons k l ih =>
    refine ih (h.modify k fun x y hxy => ?_)
    rw [hxy]

theorem clearEdges (n : NodeKey) : (g.clearEdges n).Alike (g'.clearEdges n) := by
  have hcleared := h.nodes.modify n (f := fun entry => { entry with neighbors := [] })
    (g := fun entry => { entry with neighbors := [] }) fun _ _ _ => rfl
  refine ⟨?_, h.untested_eq, h.lastTaken_eq⟩
  simp only [Graph.clearEdges, h.neighbors_eq]
  exact foldl_unlist hcleared n _

theorem removeNode (n : NodeKey) : (g.removeNode n).2.Alike (g'.removeNode n).2 := by
  unfold Graph.removeNode
  rcases h.nodes.get?_cases n with ⟨hg, hg'⟩ | ⟨x, y, hg, hg', hxy⟩
  · simp only [hg, hg']
    exact h
  · simp only [hg, hg', hxy]
    exact ⟨foldl_unlist (h.nodes.erase n) n _, by rw [h.untested_eq], by rw [h.lastTaken_eq]⟩

theorem markUntested (n : NodeKey) : (g.markUntested n).1 = (g'.markUntested n).1 ∧
    (g.markUntested n).2.Alike (g'.markUntested n).2 := by
  unfold Graph.markUntested isUntested
  rw [h.contains_eq, h.untested_eq]
  split_ifs
  exacts [⟨rfl, h.nodes, rfl, h.lastTaken_eq⟩, ⟨rfl, h⟩]

theorem unmarkUntested (n : NodeKey) : (g.unmarkUntested n).2.Alike (g'.unmarkUntested n).2 :=
  ⟨h.nodes, congrArg (·.erase n) h.untested_eq, h.lastTaken_eq⟩

theorem takeUntested : g.takeUntested.1 = g'.takeUntested.1 ∧
    g.takeUntested.2.Alike g'.takeUntested.2 := by
  have hfirst := takeUntested_fst_congr h.untested_eq
  refine ⟨hfirst, ?_⟩
  cases hn : g.takeUntested.1 with
  | none =>
    rw [(takeUntested_eq_none hn).2, (takeUntested_eq_none (hfirst.symm.trans hn)).2]
    exact h
  | some n =>
    rw [(takeUntested_eq_some hn).2, (takeUntested_eq_some (hfirst.symm.trans hn)).2]
    exact ⟨h.nodes, congrArg (·.erase n) h.untested_eq, rfl⟩

end Alike

end Graph

end WeightPolyhedron
