import WeightPolyhedron.Proofs.Rounded.Vertex
import WeightPolyhedron.Proofs.Skeleton.Sound

/-!
The numbers of a skeleton in double precision. Over any run, a weight is in the unit box, or it is
undefined as a whole, which happens where the value of a facet at a surviving vertex is too large.
Below a bound of the stored coefficients no value is too large, and all weights and values are
numbers.
-/

namespace WeightPolyhedron

open Double

namespace Mesh

variable {m m' : Mesh Float} {p n k : ℕ} {log : FacetLog Float} {id : FacetId}
  {f : Facet Float} {r : Region}

/-- Each vertex has a weight in the unit box, or an undefined one. -/
def IsBoxed (m : Mesh Float) : Prop := ∀ n v, m.vertex? n = some v → v.InBox ∨ v.Undefined

def IsNumeric (m : Mesh Float) (b : ℚ) : Prop := ∀ n v, m.vertex? n = some v → v.IsNumeric b

theorem IsBoxed.leaves (h : m.IsBoxed) (hm : m.IsSound p id) (hf : f.IsReport p)
    (hleaves : Cut.Leaves m m' p log id f r) : m'.IsBoxed := by
  intro n v hv
  cases hleaves.source hv with
  | kept hold => exact h n v hold
  | lowered hold _ hw =>
    unfold Vertex.InBox Vertex.Undefined
    rw [Vertex.weight_descend hw]
    exact h n _ hold
  | split _ ha hb hw =>
    rcases Vertex.onEdge_inBox hw (h _ _ ha) (h _ _ hb) (hm.isShaped ha) (hm.isShaped hb) hf with
      ⟨-, -, -, hbox⟩ | ⟨-, hnan⟩
    exacts [.inl hbox, .inr hnan]

theorem IsNumeric.leaves (h : m.IsNumeric (2 ^ ((n : ℤ) + k))) (hm : m.IsSound p id)
    (hf : f.IsReport p) (hwithin : f.IsWithin (2 ^ (n : ℤ))) (hroom : Vertex.HasRoom p n k)
    (hleaves : Cut.Leaves m m' p log id f r) : m'.IsNumeric (2 ^ ((n : ℤ) + k)) := by
  intro u v hv
  cases hleaves.source hv with
  | kept hold => exact h u v hold
  | lowered hold hkind hw =>
    exact (h u _ hold).descend hw (hm.isShaped hold) hf hkind hwithin hroom
  | split _ ha hb hw =>
    have hnew :=
      Vertex.IsNumeric.onEdge hw (h _ _ ha) (h _ _ hb) (hm.isShaped ha) (hm.isShaped hb) hf
      hwithin hroom
    exact ⟨hnew.inBox, hnew.value⟩

end Mesh

namespace Skeleton

variable {s s' : Skeleton Float} {objectives n k : ℕ} {point : List Float}
  {originating : Option Nat}
  {rays : List (List Float)} {settings : Settings Float}

def StoresWithin (s : Skeleton Float) (b : ℚ) : Prop := ∀ f ∈ s.log.facets, f.IsWithin b

theorem isBoxed_of_start (h : start objectives point originating settings = .ok s) :
    s.mesh.IsBoxed := by
  obtain ⟨-, rfl, f, -, rfl⟩ := start_eq_ok h
  obtain ⟨nodes, origin, hclique⟩ := clique_cornerMesh point originating
  intro n v hv
  obtain ⟨i, value, w, -, hcorner, rfl, -⟩ := hclique.exists_corner hv
  have hbox : w.InBox := Vertex.inBox_corner hcorner
  exact .inl hbox

theorem isNumeric_of_start (h : start objectives point originating settings = .ok s)
    (hstores : s.StoresWithin (2 ^ (n : ℤ))) : s.mesh.IsNumeric (2 ^ ((n : ℤ) + k)) := by
  obtain ⟨-, rfl, f, hf, rfl⟩ := start_eq_ok h
  obtain ⟨nodes, origin, hclique⟩ := clique_cornerMesh point originating
  intro u v hv
  obtain ⟨i, value, w, hvalue, hcorner, rfl, -⟩ := hclique.exists_corner hv
  have hbox : w.InBox := Vertex.inBox_corner hcorner
  refine ⟨hbox, ?_⟩
  have hmem : value ∈ f.coefficients := by
    rw [Facet.ofVector_eq_ok hf]
    exact List.mem_append_left _ (List.mem_of_getElem? hvalue)
  have hwithin : Within (2 ^ (n : ℤ)) value := hstores f (by simp [FacetLog.snoc]) value hmem
  have heq : w.value = value := by
    unfold Vertex.corner? at hcorner
    split_ifs at hcorner
    exact (Option.some.inj hcorner) ▸ rfl
  exact heq ▸ hwithin.mono (two_zpow_le (by omega))

/-- Each step keeps the weights in the box, or undefined. -/
theorem IsSound.isBoxed_step (h : s.IsSound) (hboxed : s.mesh.IsBoxed) (hstep : Step s s') :
    s'.mesh.IsBoxed := by
  rcases h.step_cases hstep with ⟨-, hvertex⟩ | ⟨f, r, hf, -, hleaves⟩
  · intro n v hv
    exact hboxed n v (hvertex n ▸ hv)
  · exact hboxed.leaves h.mesh hf hleaves

/-- Each step keeps the values bounded, if the facet that it stores is. -/
theorem IsSound.isNumeric_step (h : s.IsSound) (hroom : Vertex.HasRoom s.objectives n k)
    (hnumeric : s.StoresWithin (2 ^ (n : ℤ)) → s.mesh.IsNumeric (2 ^ ((n : ℤ) + k)))
    (hstep : Step s s') (hstores : s'.StoresWithin (2 ^ (n : ℤ))) :
    s'.mesh.IsNumeric (2 ^ ((n : ℤ) + k)) := by
  rcases h.step_cases hstep with ⟨hlog, hvertex⟩ | ⟨f, r, hf, hlog, hleaves⟩
  · unfold StoresWithin at hstores hnumeric
    rw [hlog] at hstores
    intro u v hv
    exact hnumeric hstores u v (hvertex u ▸ hv)
  · unfold StoresWithin at hstores hnumeric
    rw [hlog] at hstores
    have hold : ∀ g ∈ s.log.facets, g.IsWithin (2 ^ (n : ℤ)) := fun g hg =>
      hstores g (by simp [FacetLog.snoc, hg])
    exact (hnumeric hold).leaves h.mesh hf (hstores f (by simp [FacetLog.snoc])) hroom hleaves

theorem isBoxed_after (h : build objectives point originating rays settings = .ok s)
    (requests : List (Request Float)) : (s.after requests).mesh.IsBoxed := by
  have hall := after_induction (P := fun s => s.IsSound ∧ s.mesh.IsBoxed) h
    (fun _ hs₀ => ⟨isSound_of_start hs₀, isBoxed_of_start hs₀⟩)
    (fun _ _ ht hstep => ⟨(ht.1.step hstep).1, ht.1.isBoxed_step ht.2 hstep⟩) requests
  exact hall.2

theorem isNumeric_after (h : build objectives point originating rays settings = .ok s)
    (requests : List (Request Float)) (hroom : Vertex.HasRoom objectives n k)
    (hstores : (s.after requests).StoresWithin (2 ^ (n : ℤ))) :
    (s.after requests).mesh.IsNumeric (2 ^ ((n : ℤ) + k)) := by
  have hall := after_induction (P := fun s => s.IsSound ∧ s.objectives = objectives ∧
      (s.StoresWithin (2 ^ (n : ℤ)) → s.mesh.IsNumeric (2 ^ ((n : ℤ) + k)))) h ?_ ?_ requests
  · exact hall.2.2 hstores
  · intro s₀ hs₀
    refine ⟨isSound_of_start hs₀, ?_, isNumeric_of_start hs₀⟩
    obtain ⟨-, -, f, -, rfl⟩ := start_eq_ok hs₀
    rfl
  · rintro t t' ⟨ht, hobj, hnumeric⟩ hstep
    obtain ⟨ht', hobj', -⟩ := ht.step hstep
    exact ⟨ht', hobj'.trans hobj, ht.isNumeric_step (hobj ▸ hroom) hnumeric hstep⟩

/-- Whatever is asked of a skeleton, the weight of a vertex has all its entries from zero to one, or
all of them are undefined, and so is a weight that is handed out. If the coefficients of the stored
facets are bounded by a power of two that leaves room for one sum over the objectives, all weights
are numbers from zero to one, and all values are numbers, too, within the bound of such a sum. -/
theorem weights_after_build (h : build objectives point originating rays settings = .ok s)
    (requests : List (Request Float)) :
    let t := s.after requests
    (∀ u v, t.mesh.vertex? u = some v → v.weight.length = objectives ∧
      ((∀ x ∈ v.weight, 0 ≤ x ∧ x ≤ 1) ∨ ∀ x ∈ v.weight, x.isNaN)) ∧
    (∀ weight t', nextWeight t = .ok weight t' →
      (∀ x ∈ weight, 0 ≤ x ∧ x ≤ 1) ∨ ∀ x ∈ weight, x.isNaN) ∧
    ∀ n k : ℕ, Vertex.HasRoom objectives n k → t.StoresWithin (2 ^ (n : ℤ)) →
      (∀ u v, t.mesh.vertex? u = some v → (∀ x ∈ v.weight, x.isFinite ∧ 0 ≤ x ∧ x ≤ 1) ∧
        v.value.isFinite ∧ Within (2 ^ ((n : ℤ) + k)) v.value) ∧
      ∀ weight t', nextWeight t = .ok weight t' → ∀ x ∈ weight, x.isFinite ∧ 0 ≤ x ∧ x ≤ 1 := by
  intro t
  obtain ⟨ht, hobj, -⟩ := isSound_after h requests
  have hboxed (u : NodeKey) (v : Vertex Float) (hv : t.mesh.vertex? u = some v) :
      (∀ x ∈ v.weight, 0 ≤ x ∧ x ≤ 1) ∨ ∀ x ∈ v.weight, x.isNaN :=
    (isBoxed_after h requests u v hv).imp_left fun hbox x hx => (hbox x hx).bounds
  have hhanded {weight : List Float} {t' : Skeleton Float} (hnext : nextWeight t = .ok weight t') :
      ∃ u v, t.mesh.vertex? u = some v ∧ weight = v.weight := by
    obtain ⟨-, u, v, -, hv, rfl⟩ := (nextWeight_ends t).of_ok hnext
    exact ⟨u, v, hv, rfl⟩
  refine ⟨fun u v hv => ⟨hobj ▸ (ht.mesh.isShaped hv).weight_length, hboxed u v hv⟩,
    fun weight t' hnext => ?_, fun n k hroom hstores => ?_⟩
  · obtain ⟨u, v, hv, rfl⟩ := hhanded hnext
    exact hboxed u v hv
  · have hnumeric := isNumeric_after h requests hroom hstores
    have hbox (u : NodeKey) (v : Vertex Float) (hv : t.mesh.vertex? u = some v) :
        ∀ x ∈ v.weight, x.isFinite ∧ 0 ≤ x ∧ x ≤ 1 := fun x hx =>
      ⟨((hnumeric u v hv).inBox x hx).isFinite, ((hnumeric u v hv).inBox x hx).bounds⟩
    refine ⟨fun u v hv => ⟨hbox u v hv, (hnumeric u v hv).value.isFinite, (hnumeric u v hv).value⟩,
      fun weight t' hnext => ?_⟩
    obtain ⟨u, v, hv, rfl⟩ := hhanded hnext
    exact hbox u v hv

/-- Over the point `(1e308, -1e308)`, the value of the facet of `(-1e308, 1e308)` at the surviving
corner is too large. -/
theorem hands_out_undefined_weight :
    (match build 2 [1e308, -1e308] none [] Settings.standard with
      | .ok s =>
        match nextWeight (s.after [.pointAnywhere [-1e308, 1e308], .nextWeight, .nextWeight]) with
        | .ok [x, _] _ => !decide (0 ≤ x)
        | _ => false
      | .error _ => false) = true := by
  decide +kernel

/-- Over the point `(3, 5)`, the coefficients are small. -/
theorem stores_small_coefficients :
    (match build 2 [3, 5] none [] Settings.standard with
      | .ok s => (s.after [.pointAnywhere [5, 1]]).log.facets.toList.all fun f =>
          f.coefficients.all fun c => decide (-8 ≤ c) && decide (c ≤ 8)
      | .error _ => false) = true := by
  decide +kernel

/-- Over the point `(3, 5)`, all weights and values are numbers after the point `(5, 1)`. Over the
point `(1e308, -1e308)`, the third weight that is handed out after the point `(-1e308, 1e308)` is
undefined. -/
theorem weights_after_small_and_large_points :
    (∃ s : Skeleton Float, build 2 [3, 5] none [] .standard = .ok s ∧
      ∀ u v, (s.after [.pointAnywhere [5, 1]]).mesh.vertex? u = some v →
        (∀ x ∈ v.weight, x.isFinite ∧ 0 ≤ x ∧ x ≤ 1) ∧ v.value.isFinite) ∧
    ∃ (s t : Skeleton Float) (weight : List Float),
      build 2 [1e308, -1e308] none [] .standard = .ok s ∧
        nextWeight (s.after [.pointAnywhere [-1e308, 1e308], .nextWeight, .nextWeight]) =
          .ok weight t ∧ weight.length = 2 ∧ ∀ x ∈ weight, x.isNaN := by
  constructor
  · have hrun := stores_small_coefficients
    cases hs : build 2 [3, 5] none [] Settings.standard with
    | error e => simp [hs] at hrun
    | ok s =>
      simp only [hs, List.all_eq_true, Bool.and_eq_true, decide_eq_true_eq] at hrun
      have hbound : toRat? 8 = some (2 ^ ((3 : ℕ) : ℤ)) := by
        have h : (8 : Float).toModel.unpack = .finite .positive (2 ^ 52) (-49) (by decide) := rfl
        rw [toRat?, h, value?, signed]
        norm_num
      obtain ⟨-, -, hbounded⟩ := weights_after_build hs [.pointAnywhere [5, 1]]
      obtain ⟨hnumbers, -⟩ := hbounded 3 1 ⟨le_rfl, by norm_num, by norm_num⟩ fun f hf c hc =>
        within_of_bounds hbound (hrun f (by simpa using hf) c hc).1
          (hrun f (by simpa using hf) c hc).2
      exact ⟨s, rfl, fun u v hv => ⟨(hnumbers u v hv).1, (hnumbers u v hv).2.1⟩⟩
  · have hrun := hands_out_undefined_weight
    cases hs : build 2 [1e308, -1e308] none [] Settings.standard with
    | error e => simp [hs] at hrun
    | ok s =>
      simp only [hs] at hrun
      split at hrun
      · next x y t hnext =>
        refine ⟨s, t, [x, y], rfl, hnext, rfl, ?_⟩
        obtain ⟨-, hhanded, -⟩ := weights_after_build hs
          [.pointAnywhere [-1e308, 1e308], .nextWeight, .nextWeight]
        refine (hhanded [x, y] t hnext).resolve_left fun hbox => ?_
        simp [(hbox x (List.mem_cons_self ..)).1] at hrun
      · cases hrun

end Skeleton

end WeightPolyhedron
