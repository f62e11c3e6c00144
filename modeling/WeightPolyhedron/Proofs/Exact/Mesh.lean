import Mathlib
import WeightPolyhedron.Proofs.Cut.Effect
import WeightPolyhedron.Proofs.Exact.Form

/-!
Exact meshes: their nodes are those of the arrangement of the stored facets, resolved where it is
degenerate, and all neighbours are joined. In such a mesh the region that a facet violates is
connected and a cut meets no obstacle; its new, moved and kept nodes are those of the arrangement
with the new facet.
-/

namespace WeightPolyhedron

open Arrangement

namespace Mesh

def nodeSet {α : Type} (m : Mesh α) : Set NodeKey := {n | m.graph.contains n}

def facetsAt {α : Type} (m : Mesh α) (n : NodeKey) : Finset FacetId :=
  ((m.vertex? n).map Vertex.facetSet).getD ∅

def pointAt (m : Mesh ℚ) (p : Nat) (n : NodeKey) : Space p :=
  ((m.vertex? n).map (Vertex.point p)).getD 0

structure IsExact (m : Mesh ℚ) (log : FacetLog ℚ) (p : Nat) : Prop where
  complete : ∀ {k u}, k ∈ m.nodeSet → u ∈ m.nodeSet → Adjacent p m.facetsAt k u →
    u ∈ m.graph.neighbors k
  resolved : ∃ shift place,
    (log.arrangement p).IsResolution p log.size m.nodeSet m.facetsAt (m.pointAt p) shift place

section Views

variable {α : Type} {m : Mesh α} {n : NodeKey} {v : Vertex α}

theorem facetsAt_eq (hv : m.vertex? n = some v) : m.facetsAt n = v.facetSet := by
  simp [facetsAt, hv]

theorem pointAt_eq {m : Mesh ℚ} {v : Vertex ℚ} (hv : m.vertex? n = some v) (p : Nat) :
    m.pointAt p n = v.point p := by
  simp [pointAt, hv]

end Views

variable {m : Mesh ℚ} {log : FacetLog ℚ} {f : Facet ℚ} {p : Nat} {r : Region}
  {n k u seed : NodeKey} {v : Vertex ℚ}

theorem IsSound.mem_nodeSet {bound : Nat} (hm : m.IsSound p bound) :
    n ∈ m.nodeSet ↔ ∃ v, m.vertex? n = some v :=
  hm.contains_iff_vertex?

theorem form_pointAt {bound : Nat} (hm : m.IsSound p bound) (hf : f.IsReport p)
    (hv : m.vertex? n = some v) : f.form p (m.pointAt p n) = v.facetValue f := by
  rw [pointAt_eq hv, Vertex.form_point hf.weightCoefficients_length (hm.isShaped hv).weight_length]

theorem violatedAt_iff_form {bound : Nat} (hm : m.IsSound p bound) (hf : f.IsReport p)
    (hn : n ∈ m.nodeSet) : m.ViolatedAt f n ↔ f.form p (m.pointAt p n) < 0 := by
  obtain ⟨v, hv⟩ := hm.mem_nodeSet.1 hn
  rw [violatedAt_iff hv, form_pointAt hm hf hv]
  simp [Facet.violates]

theorem mem_nodeSet_of_violatedAt (h : m.ViolatedAt f n) : n ∈ m.nodeSet := by
  obtain ⟨v, hv, -⟩ := h
  exact contains_of_vertex? hv

/-- The search finds all violated nodes, from whichever it starts. -/
theorem IsExact.mem_region (h : m.IsExact log p) (hm : m.IsSound p log.size) (hf : f.IsReport p)
    (hseed : m.ViolatedAt f seed) (hr : r.IsAround m f seed) :
    n ∈ r.nodes ↔ m.ViolatedAt f n := by
  have hviolated {n : NodeKey} (hn : n ∈ r.nodes) : m.ViolatedAt f n := by
    rcases hr.violated hn with rfl | hn
    exacts [hseed, hn]
  refine ⟨hviolated, fun hn => ?_⟩
  obtain ⟨shift, place, hres⟩ := h.resolved
  have hnode := mem_nodeSet_of_violatedAt hn
  refine hres.mem_of_closed (g := f.form p) (C := {n | n ∈ r.nodes}) ?_ ?_ ⟨seed, hr.seed_mem⟩ ?_
    hnode ((violatedAt_iff_form hm hf hnode).1 hn)
  · exact Facet.form_down_nonneg hf.valueCoefficient_eq
  · intro k hk
    exact ⟨hr.contains hk, (violatedAt_iff_form hm hf (hr.contains hk)).1 (hviolated hk)⟩
  · intro k u hk hu hneg hadj
    exact hr.mem_of_violated ⟨hk, h.complete (hr.contains hk) hu hadj⟩
      ((violatedAt_iff_form hm hf hu).2 hneg)

/-- A cut from a violated node meets no obstacle. -/
theorem not_obstructed (hm : m.IsSound p log.size) (hf : f.IsReport p)
    (hseed : m.ViolatedAt f seed) : ¬ Cut.Obstructed m (log.snoc f) log.size f seed :=
  Cut.not_obstructed hm hf hseed (by decide) fun _ _ _ => lt_or_ge _ _

end Mesh

end WeightPolyhedron
