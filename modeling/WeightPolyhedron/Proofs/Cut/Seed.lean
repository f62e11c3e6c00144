import WeightPolyhedron.Proofs.Cut.Effect
import Mathlib.Data.Set.Function

/-!
The seed of a cut does not matter. From two violated nodes that are connected through violated ones
the search finds the same region in different orders, so that both cuts fail or both succeed, and
then the meshes differ in the names of the new nodes alone.
-/

namespace WeightPolyhedron

variable {α : Type} {m m₁ m₂ : Mesh α} {p : Nat} {id : FacetId} {f : Facet α} {log : FacetLog α}
  {r r₁ r₂ : Region} {created created₁ created₂ : List NodeKey}
  {origin origin₁ origin₂ : NodeKey → NodeKey × NodeKey} {n n' u u' seed a b : NodeKey}

/-- The second mesh is the first one with other names for nodes that a common earlier mesh does not
have, and with neighbours listed in another order. -/
structure Mesh.Renames (m m₁ m₂ : Mesh α) (rename : NodeKey → NodeKey) : Prop where
  fixed : ∀ {n}, m.graph.contains n → rename n = n
  bijOn : Set.BijOn rename {n | m₁.graph.contains n} {n | m₂.graph.contains n}
  vertex?_eq : ∀ {n}, m₁.graph.contains n →
    m₂.vertex? (rename n) = (m₁.vertex? n).map fun v => { v with node := some (rename n) }
  neighbors_perm : ∀ {n}, m₁.graph.contains n →
    (m₂.graph.neighbors (rename n)).Perm ((m₁.graph.neighbors n).map rename)
  mem_untested : ∀ {n}, m₁.graph.contains n →
    (rename n ∈ m₂.graph.untested ↔ n ∈ m₁.graph.untested)
  lastTaken_eq : m₂.graph.lastTaken = m₁.graph.lastTaken

variable [Scalar α]

namespace Cut

theorem Effect.not_obstructed (h : Effect m m₁ p log id f r created origin)
    (hregion : m.violatedRegion f seed = .ok r) : ¬ Obstructed m log id f seed := by
  have hr := Mesh.isAround_of_violatedRegion hregion
  intro hobstructed
  rcases hobstructed with hmissing | ⟨r', hregion', hfails⟩
  · exact hmissing (hr.contains hr.seed_mem)
  obtain rfl : r = r' := Except.ok.inj (hregion.symm.trans hregion')
  rcases hfails with ⟨e, he, hsep⟩ | ⟨n, hn, v, err, hv, hkind, hvert, herror⟩
  · rw [← h.map_origin] at he
    obtain ⟨n, hn, rfl⟩ := List.mem_map.1 he
    obtain ⟨a, b, w, ha, hb, hw, -⟩ := h.created_vertex hn
    obtain ⟨hbelow, habove, -⟩ := Vertex.onEdge_eq_ok hw
    refine hsep fun a' b' ha' hb' => ?_
    obtain rfl := Option.some.inj (ha.symm.trans ha')
    obtain rfl := Option.some.inj (hb.symm.trans hb')
    exact ⟨hbelow, habove⟩
  · obtain ⟨v', w, hv', hw, -⟩ := h.lowered_vertex hn ⟨v, hv, hkind, hvert⟩
    obtain rfl := Option.some.inj (hv.symm.trans hv')
    rw [herror] at hw
    cases hw

/-- A cut succeeds unless it meets an obstacle. -/
theorem exists_cut_eq_ok_iff (log : FacetLog α) (f : Facet α) (seed : NodeKey)
    (hm : m.IsSound p id) (retention : Retention) :
    (∃ stats m', Mesh.cut log id f seed retention m = .ok stats m') ↔
      ¬ Obstructed m log id f seed := by
  have hends := cut_ends log f seed hm retention
  constructor
  · rintro ⟨stats, m', hcut⟩
    obtain ⟨r, created, origin, hregion, heffect⟩ := hends.of_ok hcut
    exact heffect.not_obstructed hregion
  · intro hfree
    cases hcut : Mesh.cut log id f seed retention m with
    | ok stats m' => exact ⟨stats, m', rfl⟩
    | error err m' => exact absurd (hends.of_error hcut).2.1 hfree

structure SameRegion (r₁ r₂ : Region) : Prop where
  nodes : r₁.nodes.Perm r₂.nodes
  cutEdges : r₁.cutEdges.Perm r₂.cutEdges

theorem SameRegion.symm (h : SameRegion r₁ r₂) : SameRegion r₂ r₁ := ⟨h.nodes.symm, h.cutEdges.symm⟩

theorem sameRegion_of_spreads (hm : m.IsSound p id) (ha : m.ViolatedAt f a)
    (hab : m.Spreads f a b) (h₁ : m.violatedRegion f a = .ok r₁)
    (h₂ : m.violatedRegion f b = .ok r₂) : SameRegion r₁ r₂ := by
  have hr₁ := Mesh.isAround_of_violatedRegion h₁
  have hr₂ := Mesh.isAround_of_violatedRegion h₂
  have hnodes (n : NodeKey) : n ∈ r₁.nodes ↔ n ∈ r₂.nodes := by
    rw [Mesh.mem_violatedRegion_iff h₁, Mesh.mem_violatedRegion_iff h₂]
    exact ⟨(hm.spreads_comm ha hab).trans, hab.trans⟩
  refine ⟨(List.perm_ext_iff_of_nodup hr₁.nodup hr₂.nodup).2 hnodes, ?_⟩
  refine (List.perm_ext_iff_of_nodup (hr₁.cutEdges_nodup hm.simple.nodup)
    (hr₂.cutEdges_nodup hm.simple.nodup)).2 fun e => ?_
  rw [hr₁.mem_cutEdges, hr₂.mem_cutEdges, hnodes, hnodes]

/-- Connected seeds meet the same obstacles. -/
theorem obstructed_of_spreads (hm : m.IsSound p id) (ha : m.ViolatedAt f a)
    (hab : m.Spreads f a b) (h : Obstructed m log id f b) : Obstructed m log id f a := by
  obtain ⟨w, hw, -⟩ := hab.violatedAt ha
  obtain ⟨r₁, h₁, -⟩ :=
    hm.violatedRegion_eq_ok f (ha.elim fun v hv => Mesh.contains_of_vertex? hv.1)
  rcases h with hmissing | ⟨r₂, h₂, hfails⟩
  · exact absurd (Mesh.contains_of_vertex? hw) hmissing
  · have hsame := sameRegion_of_spreads hm ha hab h₁ h₂
    refine .inr ⟨r₁, h₁, hfails.imp ?_ ?_⟩
    · rintro ⟨e, he, hsep⟩
      exact ⟨e, hsame.cutEdges.mem_iff.2 he, hsep⟩
    · rintro ⟨n, hn, hhangs⟩
      exact ⟨n, hsame.nodes.mem_iff.2 hn, hhangs⟩

structure Twins (m m₁ m₂ : Mesh α) (p : Nat) (log : FacetLog α) (id : FacetId) (f : Facet α)
    (r₁ r₂ : Region) (created₁ created₂ : List NodeKey)
    (origin₁ origin₂ : NodeKey → NodeKey × NodeKey) : Prop where
  sound : m.IsSound p id
  first : Effect m m₁ p log id f r₁ created₁ origin₁
  second : Effect m m₂ p log id f r₂ created₂ origin₂
  nodup₁ : r₁.cutEdges.Nodup
  nodup₂ : r₂.cutEdges.Nodup
  same : SameRegion r₁ r₂

/-- The nodes are one old node, or new nodes on the same cut edge. -/
def Matched (m : Mesh α) (created₁ created₂ : List NodeKey)
    (origin₁ origin₂ : NodeKey → NodeKey × NodeKey) (n n' : NodeKey) : Prop :=
  (m.graph.contains n ∧ n' = n) ∨ (n ∈ created₁ ∧ n' ∈ created₂ ∧ origin₂ n' = origin₁ n)

omit [Scalar α] in
theorem Matched.symm (h : Matched m created₁ created₂ origin₁ origin₂ n n') :
    Matched m created₂ created₁ origin₂ origin₁ n' n := by
  rcases h with ⟨hn, rfl⟩ | ⟨hn, hn', heq⟩
  exacts [.inl ⟨hn, rfl⟩, .inr ⟨hn', hn, heq.symm⟩]

/-- The node of the second cut with the same origin; an old node is its own. -/
def counterpart (created₁ created₂ : List NodeKey) (origin₁ origin₂ : NodeKey → NodeKey × NodeKey)
    (n : NodeKey) : NodeKey :=
  if n ∈ created₁ then (created₂.find? fun k => origin₂ k = origin₁ n).getD n else n

namespace Twins

variable (h : Twins m m₁ m₂ p log id f r₁ r₂ created₁ created₂ origin₁ origin₂)

include h

theorem symm : Twins m m₂ m₁ p log id f r₂ r₁ created₂ created₁ origin₂ origin₁ :=
  ⟨h.sound, h.second, h.first, h.nodup₂, h.nodup₁, h.same.symm⟩

theorem matched_counterpart (hn : m₁.graph.contains n) :
    Matched m created₁ created₂ origin₁ origin₂ n
      (counterpart created₁ created₂ origin₁ origin₂ n) := by
  unfold counterpart
  split_ifs with hc
  · have hedge : origin₁ n ∈ created₂.map origin₂ := by
      rw [h.second.map_origin, ← h.same.cutEdges.mem_iff, ← h.first.map_origin]
      exact List.mem_map_of_mem hc
    obtain ⟨k, hk, hkn⟩ := List.mem_map.1 hedge
    cases hfind : created₂.find? fun k => origin₂ k = origin₁ n with
    | none => exact absurd hkn (by simpa using List.find?_eq_none.1 hfind k hk)
    | some n' =>
      have horigin := List.find?_some hfind
      exact .inr ⟨hc, List.mem_of_find?_eq_some hfind, by simpa using horigin⟩
  · refine .inl ⟨?_, rfl⟩
    by_contra hold
    exact hc (h.first.created_of_contains hold hn)

/-- What a node is matched with is unique. -/
theorem matched_unique (hk : Matched m created₁ created₂ origin₁ origin₂ n n')
    (hu : Matched m created₁ created₂ origin₁ origin₂ u n') : u = n := by
  rcases hk with ⟨hn, rfl⟩ | ⟨hn, hn', heq⟩ <;> rcases hu with ⟨hu, rfl⟩ | ⟨hu, hu', heq'⟩
  · rfl
  · exact absurd hn (h.second.created_new hu')
  · exact absurd hu (h.second.created_new hn')
  · exact h.first.origin_inj h.nodup₁ hu hn (heq'.symm.trans heq)

theorem vertex?_eq (hn : Matched m created₁ created₂ origin₁ origin₂ n n') :
    m₂.vertex? n' = (m₁.vertex? n).map fun v => { v with node := some n' } := by
  rcases hn with ⟨hn, rfl⟩ | ⟨hn, hn', heq⟩
  · have hsame : m₂.vertex? n' = m₁.vertex? n' := by
      have hold₁ : n' ∉ created₁ := fun hc => h.first.created_new hc hn
      have hold₂ : n' ∉ created₂ := fun hc => h.second.created_new hc hn
      by_cases hr : n' ∈ r₁.nodes
      · have hr' := h.same.nodes.mem_iff.1 hr
        by_cases hl : m.Lowers log f n'
        · obtain ⟨v, w, hv, hw, hs⟩ := h.first.lowered_vertex hr hl
          obtain ⟨v', w', hv', hw', hs'⟩ := h.second.lowered_vertex hr' hl
          obtain rfl := Option.some.inj (hv.symm.trans hv')
          obtain rfl := Except.ok.inj (hw.symm.trans hw')
          rw [hs, hs']
        · rw [h.first.removed hr hl, h.second.removed hr' hl]
      · have hr' : n' ∉ r₂.nodes := fun hc => hr (h.same.nodes.mem_iff.2 hc)
        rw [h.first.kept hr hold₁, h.second.kept hr' hold₂]
    rw [hsame]
    cases hv : m₁.vertex? n' with
    | none => rfl
    | some v =>
      have hnode := h.first.sound.node_eq hv
      rw [Option.map_some, ← hnode]
  · obtain ⟨a, b, w, ha, hb, hw, hs⟩ := h.first.created_vertex hn
    obtain ⟨a', b', w', ha', hb', hw', hs'⟩ := h.second.created_vertex hn'
    rw [heq] at ha' hb'
    obtain rfl := Option.some.inj (ha.symm.trans ha')
    obtain rfl := Option.some.inj (hb.symm.trans hb')
    obtain rfl := Except.ok.inj (hw.symm.trans hw')
    rw [hs, hs', Option.map_some]

theorem contains (hn : Matched m created₁ created₂ origin₁ origin₂ n n') :
    m₁.graph.contains n ↔ m₂.graph.contains n' := by
  rw [h.first.sound.contains_iff_vertex?, h.second.sound.contains_iff_vertex?, h.vertex?_eq hn]
  cases m₁.vertex? n <;> simp

theorem fresh (hn : Matched m created₁ created₂ origin₁ origin₂ n n')
    (hfresh : Fresh m log f r₁ created₁ n) : Fresh m log f r₂ created₂ n' := by
  rcases hn with ⟨hn, rfl⟩ | ⟨-, hn', -⟩
  · rcases hfresh with hc | ⟨hr, hl⟩
    · exact absurd hn (h.first.created_new hc)
    · exact .inr ⟨h.same.nodes.mem_iff.1 hr, hl⟩
  · exact .inl hn'

/-- The surviving end of a cut edge is an old node. -/
theorem origin_contains (hn : n ∈ created₁) : m.graph.contains (origin₁ n).2 := by
  obtain ⟨_, _, _, -, hb, -⟩ := h.first.created_vertex hn
  exact Mesh.contains_of_vertex? hb

theorem mem_neighbors (hn : Matched m created₁ created₂ origin₁ origin₂ n n')
    (hu : Matched m created₁ created₂ origin₁ origin₂ u u') (hedge : u ∈ m₁.graph.neighbors n) :
    u' ∈ m₂.graph.neighbors n' := by
  have hold {k k' : NodeKey} (hk : Matched m created₁ created₂ origin₁ origin₂ k k')
      (hcontains : m.graph.contains k) : k' = k := by
    rcases hk with ⟨-, rfl⟩ | ⟨hk, -⟩
    exacts [rfl, absurd hcontains (h.first.created_new hk)]
  have hsplit {k k' x : NodeKey} (hk : Matched m created₁ created₂ origin₁ origin₂ k k')
      (hc : k ∈ created₁) (hx : x = (origin₁ k).2) : k' ∈ created₂ ∧ x = (origin₂ k').2 := by
    rcases hk with ⟨hk, -⟩ | ⟨-, hk', heq⟩
    exacts [absurd hk (h.first.created_new hc), ⟨hk', heq ▸ hx⟩]
  rw [h.first.mem_neighbors] at hedge
  rw [h.second.mem_neighbors]
  rcases hedge with ⟨hedge, hnr, hur⟩ | ⟨hc, hend⟩ | ⟨hc, hend⟩ | ⟨hnf, huf, v, w, hv, hw, hvw⟩
  · obtain rfl := hold hn (Graph.contains_of_mem_neighbors hedge)
    obtain rfl := hold hu (h.sound.simple.contains_neighbor hedge)
    exact .inl ⟨hedge, fun hc => hnr (h.same.nodes.mem_iff.2 hc),
      fun hc => hur (h.same.nodes.mem_iff.2 hc)⟩
  · obtain rfl := hold hu (hend ▸ h.origin_contains hc)
    exact .inr (.inl (hsplit hn hc hend))
  · obtain rfl := hold hn (hend ▸ h.origin_contains hc)
    exact .inr (.inr (.inl (hsplit hu hc hend)))
  · refine .inr (.inr (.inr ⟨h.fresh hn hnf, h.fresh hu huf, { v with node := some n' },
      { w with node := some u' }, ?_, ?_, hvw⟩))
    · rw [h.vertex?_eq hn, hv, Option.map_some]
    · rw [h.vertex?_eq hu, hw, Option.map_some]

theorem mem_untested (hn : Matched m created₁ created₂ origin₁ origin₂ n n')
    (hmark : n ∈ m₁.graph.untested) : n' ∈ m₂.graph.untested := by
  rw [h.first.mem_untested] at hmark
  rw [h.second.mem_untested, ← h.same.nodes.mem_iff]
  rcases hn with ⟨hn, rfl⟩ | ⟨-, hn', -⟩
  · exact hmark.imp_right (Or.imp_left fun hc => absurd hn (h.first.created_new hc))
  · exact .inr (.inl hn')

theorem lastTaken_eq : m₂.graph.lastTaken = m₁.graph.lastTaken := by
  apply Option.ext
  intro n
  rw [h.first.lastTaken_iff, h.second.lastTaken_iff, h.same.nodes.mem_iff]

theorem counterpart_counterpart (hn : m₁.graph.contains n) :
    counterpart created₂ created₁ origin₂ origin₁
      (counterpart created₁ created₂ origin₁ origin₂ n) = n := by
  have hmatched := h.matched_counterpart hn
  have hback := h.symm.matched_counterpart ((h.contains hmatched).1 hn)
  exact h.matched_unique hmatched hback.symm

/-- Two cuts of the same region differ in the names of the new nodes. -/
theorem renames :
    m.Renames m₁ m₂ (counterpart created₁ created₂ origin₁ origin₂) := by
  have hmatched {n} (hn : m₁.graph.contains n) := h.matched_counterpart hn
  have hmapsTo {n} (hn : m₁.graph.contains n) := (h.contains (hmatched hn)).1 hn
  have hmapsBack {n} (hn : m₂.graph.contains n) :=
    (h.symm.contains (h.symm.matched_counterpart hn)).1 hn
  refine ⟨?_, ?_, fun hn => h.vertex?_eq (hmatched hn), ?_, ?_, h.lastTaken_eq⟩
  · intro n hn
    exact if_neg fun hc => h.first.created_new hc hn
  · exact Set.InvOn.bijOn
      ⟨fun n hn => h.counterpart_counterpart hn, fun n hn => h.symm.counterpart_counterpart hn⟩
      (fun n hn => hmapsTo hn) fun n hn => hmapsBack hn
  · intro n hn
    have hinj :
        ((m₁.graph.neighbors n).map (counterpart created₁ created₂ origin₁ origin₂)).Nodup := by
      refine (h.first.sound.simple.nodup n).map_on fun u hu k hk heq => ?_
      have hu' := h.first.sound.simple.contains_neighbor hu
      have hk' := h.first.sound.simple.contains_neighbor hk
      rw [← h.counterpart_counterpart hu', heq, h.counterpart_counterpart hk']
    refine (List.perm_ext_iff_of_nodup (h.second.sound.simple.nodup _) hinj).2 fun u' => ?_
    rw [List.mem_map]
    constructor
    · intro hu'
      have hlive := h.second.sound.simple.contains_neighbor hu'
      have hback := h.symm.matched_counterpart hlive
      exact ⟨_, h.symm.mem_neighbors (hmatched hn).symm hback hu',
        h.symm.counterpart_counterpart hlive⟩
    · rintro ⟨u, hu, rfl⟩
      exact h.mem_neighbors (hmatched hn) (hmatched (h.first.sound.simple.contains_neighbor hu)) hu
  · intro n hn
    exact ⟨h.symm.mem_untested (hmatched hn).symm, h.mem_untested (hmatched hn)⟩

end Twins

/-- Cuts from connected seeds both fail, or both succeed with the same statistics and with meshes
that differ in the names of the new nodes. -/
theorem cut_eq_of_spreads (hm : m.IsSound p id) (ha : m.ViolatedAt f a) (hab : m.Spreads f a b)
    (log : FacetLog α) (retention : Retention) :
    (∃ stats m₁ m₂ rename, Mesh.cut log id f a retention m = .ok stats m₁ ∧
      Mesh.cut log id f b retention m = .ok stats m₂ ∧ m.Renames m₁ m₂ rename) ∨
    ∃ e₁ e₂ m₁ m₂, Mesh.cut log id f a retention m = .error e₁ m₁ ∧
      Mesh.cut log id f b retention m = .error e₂ m₂ := by
  have hends₁ := cut_phases log f a hm retention
  have hends₂ := cut_phases log f b hm retention
  have hsucceeds : (∃ stats m', Mesh.cut log id f a retention m = .ok stats m') ↔
      ∃ stats m', Mesh.cut log id f b retention m = .ok stats m' := by
    rw [exists_cut_eq_ok_iff log f a hm, exists_cut_eq_ok_iff log f b hm]
    have hba := hm.spreads_comm ha hab
    exact ⟨fun hfree hb => hfree (obstructed_of_spreads hm ha hab hb),
      fun hfree hb => hfree (obstructed_of_spreads hm (hab.violatedAt ha) hba hb)⟩
  cases h₁ : Mesh.cut log id f a retention m with
  | ok stats₁ m₁ =>
    obtain ⟨stats₂, m₂, h₂⟩ := hsucceeds.1 ⟨stats₁, m₁, h₁⟩
    obtain ⟨r₁, created₁, origin₁, _, _, _, fates₁, hregion₁, hphases₁, -, -, rfl⟩ :=
      hends₁.of_ok h₁
    obtain ⟨r₂, created₂, origin₂, _, _, _, fates₂, hregion₂, hphases₂, -, -, rfl⟩ :=
      hends₂.of_ok h₂
    have hsame := sameRegion_of_spreads hm ha hab hregion₁ hregion₂
    have htwins : Twins m m₁ m₂ p log id f r₁ r₂ created₁ created₂ origin₁ origin₂ :=
      ⟨hm, hphases₁.effect, hphases₂.effect, hphases₁.around.cutEdges_nodup hm.simple.nodup,
        hphases₂.around.cutEdges_nodup hm.simple.nodup, hsame⟩
    refine .inl ⟨_, m₁, m₂, _, rfl, ?_, htwins.renames⟩
    have hopened : m.loweredCount log f r₂.nodes = m.loweredCount log f r₁.nodes :=
      hsame.nodes.symm.countP_eq _
    rw [h₂, hphases₁.countP_isOpened, hphases₂.countP_isOpened, hphases₁.length_created,
      hphases₂.length_created, hopened, hsame.nodes.length_eq, hsame.cutEdges.length_eq]
  | error e₁ m₁ =>
    cases h₂ : Mesh.cut log id f b retention m with
    | error e₂ m₂ => exact .inr ⟨e₁, e₂, m₁, m₂, rfl, rfl⟩
    | ok stats₂ m₂ =>
      obtain ⟨stats, m', hok⟩ := hsucceeds.2 ⟨stats₂, m₂, h₂⟩
      rw [hok] at h₁
      cases h₁

end Cut

end WeightPolyhedron
