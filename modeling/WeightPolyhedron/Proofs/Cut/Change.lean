import WeightPolyhedron.Proofs.Cut.Split

/-!
The single changes that a cut is made of. Until a cut discards the nodes that it removes, it only
adds vertices and edges, moves vertices, and sets marks. A cut that fails stops between two of these
changes.
-/

namespace WeightPolyhedron

open Relation (ReflTransGen)

namespace Mesh

variable {α β γ : Type} {m m' : Mesh α} {n : NodeKey} {v w : Vertex α}

/-- A change of a mesh that discards no node. A vertex is replaced by one of the same node. -/
inductive Change : Mesh α → Mesh α → Prop
  | unmark (m : Mesh α) (nodes : List NodeKey) : Change m (m.unmark nodes)
  | attach (m : Mesh α) (v : Vertex α) (untested : Bool) : Change m (m.attach v untested).2
  | join (m : Mesh α) (u v : NodeKey) : Change m (m.join u v)
  | setVertex {m : Mesh α} {n : NodeKey} {v w : Vertex α} (stored : m.vertex? n = some v)
    (node_eq : w.node = v.node) : Change m (m.setVertex n w)
  | reopen (m : Mesh α) (n : NodeKey) : Change m (m.reopen n).2

theorem changes_foldl {l : List β} {change : Mesh α → β → Mesh α}
    (h : ∀ m b, ReflTransGen Change m (change m b)) (m : Mesh α) :
    ReflTransGen Change m (l.foldl change m) := by
  induction l generalizing m with
  | nil => exact .refl
  | cons b l ih => exact (h m b).trans (ih _)

/-- The action comes down to such changes, whether it succeeds or not. -/
def Changes (action : Action α β) : Prop :=
  ∀ m : Mesh α, Ends action m (fun _ => ReflTransGen Change m) fun _ => ReflTransGen Change m

namespace Changes

variable {action : Action α β} {next : β → Action α γ}

theorem pure (b : β) : Changes (Pure.pure b : Action α β) := fun _ => .pure .refl

theorem bind (h : Changes action) (hnext : ∀ b, Changes (next b)) : Changes (action >>= next) :=
  fun m => .bind ((h m).mono
    (fun b m' hm => (hnext b m').mono (fun _ _ => hm.trans) fun _ _ => hm.trans) fun _ _ => id)

theorem mapM {f : β → Action α γ} (h : ∀ b, Changes (f b)) (l : List β) : Changes (l.mapM f) :=
  fun m => .mapM (fun _ _ => ReflTransGen Change m)
    (fun _ b _ _ m' _ hm => (h b m').mono (fun _ _ => hm.trans) fun _ _ => hm.trans) .refl

end Changes

theorem inspect_changes (read : Mesh α → Except Error β) : Changes (inspect read) := by
  intro m
  unfold Ends inspect
  cases read m <;> exact .refl

theorem derive_changes (v : Except (Vertex.Error α) (Vertex α)) : Changes (derive v) := by
  intro m
  unfold Ends derive
  cases v <;> exact .refl

theorem changes_joinPairs (m : Mesh α) (nodes : List NodeKey) (pairs : List (Nat × Nat)) :
    ReflTransGen Change m (m.joinPairs nodes pairs) := by
  refine changes_foldl (fun m pair => ?_) m
  obtain ⟨i, j⟩ := pair
  dsimp only
  split
  · exact .single (.join m ..)
  · exact .refl

variable [Scalar α]

theorem splitEdge_changes (id : FacetId) (f : Facet α) (e : NodeKey × NodeKey) :
    Changes (splitEdge id f e) := by
  refine (inspect_changes _).bind fun _ => (inspect_changes _).bind fun _ =>
    (derive_changes _).bind fun v m => ?_
  exact .modifyGet ((ReflTransGen.single (.attach m v true)).tail (.join ..))

omit [Scalar α] in
theorem inspect_vertexAt_ends (m : Mesh α) (n : NodeKey) : Ends (inspect (·.vertexAt n)) m
    (fun v m' => m' = m ∧ m.vertex? n = some v) fun _ m' => m' = m := by
  cases hv : m.vertexAt n with
  | ok v => simpa [Ends, inspect, hv] using vertexAt_eq_ok_iff.1 hv
  | error e => simp [Ends, inspect, hv]

theorem settle_changes (log : FacetLog α) (id : FacetId) (f : Facet α) (n : NodeKey) :
    Changes (settle log id f n) := by
  intro m
  refine .bind ((m.inspect_vertexAt_ends n).mono ?_ fun _ m' hm' => hm' ▸ .refl)
  rintro v _ ⟨rfl, hv⟩
  split_ifs
  · refine .bind (ends_derive (fun w hw => ?_) fun _ _ => .refl)
    have hset := ReflTransGen.single (Change.setVertex hv (Vertex.node_descend hw))
    exact .modifyGet (hset.tail (.reopen _ n))
  · exact .pure .refl

/-- A cut changes the mesh so, and discards nodes at the end if it succeeds. -/
theorem cut_changes (log : FacetLog α) (id : FacetId) (f : Facet α) (seed : NodeKey)
    (retention : Retention) (m : Mesh α) : Ends (Mesh.cut log id f seed retention) m
      (fun _ m' => ∃ (nodes : List NodeKey) (s : Mesh α), ReflTransGen Change m s ∧
        m' = nodes.foldl (·.discard retention ·) s)
      fun _ m' => ReflTransGen Change m m' := by
  have hfollow {β : Type} {action : Action α β} (h : Changes action) {s : Mesh α}
      (hs : ReflTransGen Change m s) :
      Ends action s (fun _ => ReflTransGen Change m) fun _ => ReflTransGen Change m :=
    (h s).mono (fun _ _ => hs.trans) fun _ _ => hs.trans
  refine (hfollow (inspect_changes _) .refl).andThen fun region s hs => .bind (.modify ?_)
  have hs := hs.tail (.unmark s region.nodes)
  refine (hfollow (.mapM (splitEdge_changes id f) _) hs).andThen fun created s hs => ?_
  refine (hfollow (.mapM (settle_changes log id f) _) hs).andThen fun fates s hs => ?_
  refine (hfollow (.mapM (fun _ => inspect_changes _) _) hs).andThen fun vertices s hs => ?_
  exact .bind (.modify (.bind (.modify (.pure ⟨_, _, hs.trans (s.changes_joinPairs ..), rfl⟩))))

end Mesh

end WeightPolyhedron
