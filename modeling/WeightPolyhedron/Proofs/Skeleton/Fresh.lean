import WeightPolyhedron.Proofs.Cut.Change
import WeightPolyhedron.Proofs.Skeleton.Step

/-!
Keys of nodes are never issued twice. Along all steps of a skeleton, failed ones included, a key
that was issued stays issued, and if it has no node any more it never gets one again.
-/

namespace WeightPolyhedron

namespace Arena

variable {role : Role} {β : Type} {a b c : Arena role β} {k : Key role}

def generation? (a : Arena role β) (slot : Nat) : Option Nat := a.slots[slot]?.map (·.generation)

def Issued (a : Arena role β) (k : Key role) : Prop :=
  ∃ generation, a.generation? k.slot = some generation ∧ k.generation ≤ generation

/-- The second arena comes later: a key that was issued is there only if it was there before. -/
structure Precedes (a b : Arena role β) : Prop where
  issued : ∀ {k}, a.Issued k → b.Issued k
  contains : ∀ {k}, b.contains k → a.Issued k → a.contains k

theorem issued_of_contains (h : a.contains k) : a.Issued k := by
  obtain ⟨v, hv⟩ := Option.isSome_iff_exists.1 h
  exact ⟨k.generation, by rw [generation?, get?_eq_some_iff.1 hv]; rfl, le_rfl⟩

theorem Precedes.refl (a : Arena role β) : a.Precedes a := ⟨id, fun h _ => h⟩

theorem Precedes.trans (hab : a.Precedes b) (hbc : b.Precedes c) : a.Precedes c where
  issued hk := hbc.issued (hab.issued hk)
  contains hk hissued := hab.contains (hbc.contains hk (hab.issued hissued)) hissued

/-- The slot of the next key is behind it. -/
theorem not_issued_nextKey (a : Arena role β) : ¬ a.Issued a.nextKey := by
  intro hissued
  obtain ⟨generation, hslot, hle⟩ := hissued
  cases hvacant : a.vacant with
  | nil => simp [generation?, nextKey_of_full hvacant] at hslot
  | cons slot rest =>
    obtain ⟨_, free⟩ := a.vacant_free slot (by simp [hvacant])
    simp only [nextKey_of_vacant hvacant, generation?, free, Option.map_some, Option.getD_some,
      Option.some.injEq] at hslot hle
    omega

theorem precedes_insert (a : Arena role β) (v : β) : a.Precedes (a.insert v).2 where
  issued {k} hk := by
    obtain ⟨generation, hslot, hle⟩ := hk
    by_cases hnext : k.slot = a.nextKey.slot
    · refine ⟨a.nextKey.generation, by simp [generation?, slots_insert, hnext], ?_⟩
      by_contra hlt
      exact a.not_issued_nextKey ⟨generation, hnext ▸ hslot, by omega⟩
    · exact ⟨generation, by simpa [generation?, slots_insert, hnext] using hslot, hle⟩
  contains {k} hk hissued := by
    unfold Arena.contains at hk
    rw [get?_insert] at hk
    split_ifs at hk with heq
    · exact absurd (heq ▸ hissued) a.not_issued_nextKey
    · exact hk

/-- The slot of a key whose entry changes or leaves stays at its generation. -/
theorem generation?_setIfInBounds {v : β} (h : a.get? k = some v) (kept : Option β) (i : Nat) :
    (a.slots.setIfInBounds k.slot ⟨k.generation, kept⟩)[i]?.map (·.generation) =
      a.generation? i := by
  have hslot := get?_eq_some_iff.1 h
  have hlt := (Array.getElem?_eq_some_iff.1 hslot).1
  by_cases hi : k.slot = i
  · rw [← hi, generation?, hslot, Array.getElem?_setIfInBounds_self_of_lt hlt]
    rfl
  · rw [generation?, Array.getElem?_setIfInBounds_ne hi]

theorem generation?_modify (a : Arena role β) (k : Key role) (f : β → β) (i : Nat) :
    (a.modify k f).generation? i = a.generation? i := by
  unfold modify
  split
  · next v h => exact generation?_setIfInBounds h _ i
  · rfl

theorem generation?_erase (a : Arena role β) (k : Key role) (i : Nat) :
    (a.erase k).generation? i = a.generation? i := by
  unfold erase
  split
  · next v h => exact generation?_setIfInBounds h _ i
  · rfl

theorem precedes_modify (a : Arena role β) (k : Key role) (f : β → β) :
    a.Precedes (a.modify k f) where
  issued hl := by simpa only [Issued, generation?_modify] using hl
  contains {l} hl _ := by
    unfold Arena.contains at hl ⊢
    rw [get?_modify] at hl
    split_ifs at hl with heq
    · simpa [heq] using hl
    · exact hl

theorem precedes_erase (a : Arena role β) (k : Key role) : a.Precedes (a.erase k) where
  issued hl := by simpa only [Issued, generation?_erase] using hl
  contains {l} hl _ := by
    unfold Arena.contains at hl ⊢
    rw [get?_erase] at hl
    split_ifs at hl
    · cases hl
    · exact hl

end Arena

namespace Graph

theorem precedes_foldl_unlist (l : List NodeKey) (n : NodeKey) (nodes : Arena .node Node) :
    nodes.Precedes (l.foldl (unlist · n ·) nodes) := by
  induction l generalizing nodes with
  | nil => exact .refl nodes
  | cons k l ih => exact (nodes.precedes_modify k _).trans (ih _)

theorem precedes_addEdge (g : Graph) (u v : NodeKey) :
    g.nodes.Precedes (g.addEdge u v).2.nodes := by
  unfold addEdge
  split_ifs
  · exact .refl _
  · exact (g.nodes.precedes_modify u _).trans (Arena.precedes_modify _ v _)

theorem precedes_clearEdges (g : Graph) (n : NodeKey) : g.nodes.Precedes (g.clearEdges n).nodes :=
  (g.nodes.precedes_modify n _).trans (precedes_foldl_unlist ..)

theorem precedes_removeNode (g : Graph) (n : NodeKey) :
    g.nodes.Precedes (g.removeNode n).2.nodes := by
  unfold removeNode
  split
  · exact .refl _
  · exact (g.nodes.precedes_erase n).trans (precedes_foldl_unlist ..)

end Graph

namespace Mesh

variable {α : Type} {m : Mesh α}

def Precedes (m m' : Mesh α) : Prop := m.graph.nodes.Precedes m'.graph.nodes

theorem Precedes.refl (m : Mesh α) : m.Precedes m := Arena.Precedes.refl _

theorem Precedes.trans {m' m'' : Mesh α} (h : m.Precedes m') (h' : m'.Precedes m'') :
    m.Precedes m'' :=
  Arena.Precedes.trans h h'

theorem Change.precedes {m' : Mesh α} (h : Change m m') : m.Precedes m' := by
  cases h with
  | unmark nodes =>
    rw [Precedes, unmark_graph_nodes]
    exact .refl _
  | attach v untested =>
    rw [Precedes, attach_graph]
    exact m.graph.nodes.precedes_insert _
  | join u v => exact m.graph.precedes_addEdge u v
  | setVertex =>
    rw [Precedes, setVertex_graph]
    exact .refl _
  | reopen n =>
    rw [Precedes, reopen_graph_nodes]
    exact m.graph.precedes_clearEdges n

theorem precedes_of_changes {m' : Mesh α} (h : Relation.ReflTransGen Change m m') :
    m.Precedes m' := by
  induction h with
  | refl => exact .refl m
  | tail _ hchange ih => exact ih.trans hchange.precedes

theorem precedes_discards (m : Mesh α) (retention : Retention) (nodes : List NodeKey) :
    m.Precedes (nodes.foldl (·.discard retention ·) m) := by
  induction nodes generalizing m with
  | nil => exact .refl m
  | cons n nodes ih =>
    refine Precedes.trans ?_ (ih _)
    rw [Precedes, discard_graph]
    exact m.graph.precedes_removeNode n

theorem precedes_cut [Scalar α] (log : FacetLog α) (id : FacetId) (f : Facet α) (seed : NodeKey)
    (retention : Retention) (m : Mesh α) :
    Ends (cut log id f seed retention) m (fun _ => Precedes m) fun _ => Precedes m := by
  refine (cut_changes log id f seed retention m).mono ?_ fun _ _ => precedes_of_changes
  rintro _ _ ⟨nodes, s, hs, rfl⟩
  exact (precedes_of_changes hs).trans (precedes_discards s retention nodes)

end Mesh

namespace Skeleton

variable {α : Type} [Scalar α] {s s' : Skeleton α}

omit [Scalar α] in
theorem mesh_audited (s : Skeleton α) : s.audited.mesh = s.mesh := by
  unfold audited
  split
  · split <;> rfl
  · rfl

theorem precedes_cut (s : Skeleton α) (f : Facet α) (seed : NodeKey) :
    Ends (cut f seed) s (fun _ s' => s.mesh.Precedes s'.mesh)
      fun _ s' => s.mesh.Precedes s'.mesh := by
  unfold Ends cut
  cases s.log.push f with
  | error cause => exact .refl _
  | ok stored =>
    obtain ⟨id, log⟩ := stored
    have hends := Mesh.precedes_cut log id f seed s.settings.retention s.mesh
    cases hcut : Mesh.cut log id f seed s.settings.retention s.mesh with
    | ok stats m => simpa only [hcut, mesh_audited] using hends.of_ok hcut
    | error cause m => simpa only [hcut] using hends.of_error hcut

theorem Step.precedes (h : Step s s') : s.mesh.Precedes s'.mesh := by
  cases h with
  | take =>
    rw [Mesh.Precedes, taken, Graph.takeUntested_nodes]
    exact .refl _
  | note => exact .refl _
  | cut _ _ done => exact (precedes_cut ..).of_ok done
  | failedCut _ _ failed => exact (precedes_cut ..).of_error failed

theorem precedes_of_reaches (h : Relation.ReflTransGen Step s s') : s.mesh.Precedes s'.mesh := by
  induction h with
  | refl => exact .refl _
  | tail _ hstep ih => exact ih.trans hstep.precedes

end Skeleton

end WeightPolyhedron
