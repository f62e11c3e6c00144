import WeightPolyhedron.Proofs.Exact.Complete
import WeightPolyhedron.Proofs.Geometry.Extreme
import WeightPolyhedron.Proofs.Skeleton.Repeat

/-!
The order of reports. Without a margin, a report that is tried at all vertices leaves of the
polyhedron what lies in the half-space of its facet, whether the facet is stored or rejected. As the
positions of the vertices are the extreme points of the polyhedron, they do not depend on the order
in which the reports came.
-/

namespace WeightPolyhedron

/-- The request tries a vector of the right length at all vertices, which makes the facet. -/
def Request.Makes {α : Type} [Scalar α] (request : Request α) (p : Nat) (f : Facet α) : Prop :=
  ∃ make values, request.scan? = some (make, values) ∧ values.length = p ∧ make values = .ok f

theorem Space.of_injective {p : Nat} {w w' : List ℚ} {z z' : ℚ} (hw : w.length = p)
    (hw' : w'.length = p) (h : Space.of p w z = Space.of p w' z') : (w, z) = (w', z') := by
  obtain ⟨hweight, rfl⟩ := Prod.mk.inj h
  congr 1
  apply List.ext_getElem (hw.trans hw'.symm)
  intro i hi hi'
  simpa [hi, hi'] using congrFun hweight ⟨i, hw ▸ hi⟩

namespace FacetLog

variable {log : FacetLog ℚ} {f : Facet ℚ} {p : Nat} {y : Space p}

def polyhedron (log : FacetLog ℚ) (p : Nat) : Set (Space p) :=
  (log.arrangement p).polyhedron log.size

theorem mem_polyhedron_snoc :
    y ∈ (log.snoc f).polyhedron p ↔ y ∈ log.polyhedron p ∧ 0 ≤ f.form p y := by
  have hagree := log.agreesBelow_snoc f p
  have hside : ((log.snoc f).arrangement p).side log.size = f.form p := side_eq get?_snoc_size
  constructor
  · intro hy
    refine ⟨⟨hy.1, fun j hj => ?_⟩, ?_⟩
    · rw [hagree.side_eq hj]
      exact hy.2 j (size_snoc (f := f) ▸ Nat.lt_succ_of_lt hj)
    · rw [← hside]
      exact hy.2 log.size (size_snoc (f := f) ▸ Nat.lt_succ_self _)
  · rintro ⟨hy, hf⟩
    refine ⟨hy.1, fun j hj => ?_⟩
    rw [size_snoc] at hj
    rcases Nat.lt_succ_iff_lt_or_eq.1 hj with hj | rfl
    · rw [← hagree.side_eq hj]
      exact hy.2 j hj
    · rwa [hside]

end FacetLog

namespace Skeleton

def positions {α : Type} (s : Skeleton α) : Set (List α × α) :=
  {y | ∃ n v, s.mesh.vertex? n = some v ∧ y = (v.weight, v.value)}

/-- A vector that makes no facet is refused, and nothing changes. -/
theorem respond_of_not_makes {α : Type} [Scalar α] {s : Skeleton α} {request : Request α}
    (hscan : request.scan?.isSome) (hnone : ∀ f, ¬ request.Makes s.objectives f) :
    (s.respond request).2 = s := by
  obtain ⟨⟨make, values⟩, hscan⟩ := Option.isSome_iff_exists.1 hscan
  obtain ⟨tolerance, -, hends⟩ := scan_ends (s := s) hscan
  apply of_perform (P := (· = s))
  apply hends.mono
  · rintro _ s' ⟨b, -, f, hlength, hf, -⟩
    exact absurd ⟨make, values, hscan, hlength, hf⟩ (hnone f)
  · rintro e s' (⟨rfl, -⟩ | ⟨f, hlength, hf, -⟩)
    · rfl
    · exact absurd ⟨make, values, hscan, hlength, hf⟩ (hnone f)

variable {s s' : Skeleton ℚ} {f : Facet ℚ} {request : Request ℚ} {requests : List (Request ℚ)}
  {objectives p : Nat} {point : List ℚ} {originating : Option Nat} {rays : List (List ℚ)}
  {settings : Settings ℚ}

/-- The vertices are at the extreme points of the polyhedron. -/
theorem IsExact.mem_positions_iff (h : s.IsExact) (hobj : s.objectives = p) {y : List ℚ × ℚ} :
    y ∈ s.positions ↔
      y.1.length = p ∧ Space.of p y.1 y.2 ∈ (s.log.polyhedron p).extremePoints ℚ := by
  subst hobj
  obtain ⟨shift, place, hres⟩ := h.mesh.resolved
  rw [FacetLog.polyhedron, ← hres.image_eq_extremePoints]
  constructor
  · rintro ⟨n, v, hv, rfl⟩
    exact ⟨(h.sound.mesh.isShaped hv).weight_length, n, Mesh.contains_of_vertex? hv,
      Mesh.pointAt_eq hv _⟩
  · rintro ⟨hlength, n, hn, hpoint⟩
    obtain ⟨v, hv⟩ := h.sound.mesh.mem_nodeSet.1 hn
    rw [Mesh.pointAt_eq hv] at hpoint
    exact ⟨n, v, hv,
      (Space.of_injective (h.sound.mesh.isShaped hv).weight_length hlength hpoint).symm⟩

/-- A facet that no vertex violates excludes nothing. -/
theorem IsExact.form_nonneg (h : s.IsExact) (hf : f.IsReport s.objectives)
    (hall : ∀ n, ¬ s.mesh.ViolatedAt f n) {y : Space s.objectives}
    (hy : y ∈ s.log.polyhedron s.objectives) : 0 ≤ f.form s.objectives y := by
  obtain ⟨n, v, hv, hle⟩ := h.exists_facetValue_le_form hf hy
  apply hle.trans'
  by_contra hneg
  exact hall n ⟨v, hv, by simpa [Facet.violates] using hneg⟩

/-- Without a margin, what passes no test violates nothing. -/
theorem violatedAt_iff_tested (hmargin : s.settings.epsilon = 0) {n : NodeKey} :
    s.mesh.ViolatedAt f n ↔ s.Tested f (s.toleranceFor f) n := by
  unfold Mesh.ViolatedAt Tested toleranceFor
  split_ifs <;> simp [Facet.violates, tolerance, hmargin]

theorem IsExact.mem_polyhedron_respond (h : s.IsExact) (hobj : s.objectives = p)
    (hmargin : s.settings.epsilon = 0) (hscan : request.scan?.isSome) {y : Space p} :
    y ∈ (s.respond request).2.log.polyhedron p ↔
      y ∈ s.log.polyhedron p ∧ ∀ f, request.Makes p f → 0 ≤ f.form p y := by
  subst hobj
  by_cases hmakes : ∃ f, request.Makes s.objectives f
  · obtain ⟨f, make, values, hscan, hlength, hf⟩ := hmakes
    have honly : (∀ g, request.Makes s.objectives g → 0 ≤ g.form s.objectives y) ↔
        0 ≤ f.form s.objectives y := by
      simp [Request.Makes, hscan, hlength, hf]
    rw [honly]
    rcases h.sound.respond_scan hscan hlength hf with ⟨heq, hnone⟩ | ⟨n, -, hlog, -⟩
    · obtain ⟨tolerance, hsuits, -⟩ := scan_ends (s := s) hscan
      rw [heq]
      refine (and_iff_left_of_imp fun hy => ?_).symm
      exact h.form_nonneg (hsuits.isReport hlength hf).1
        (fun n hn => hnone n ((violatedAt_iff_tested hmargin).1 hn)) hy
    · rw [hlog, FacetLog.mem_polyhedron_snoc]
  · rw [respond_of_not_makes hscan fun f hf => hmakes ⟨f, hf⟩]
    exact (and_iff_left fun f hf => absurd ⟨f, hf⟩ hmakes).symm

/-- The reports leave of the polyhedron what lies in all of their half-spaces. -/
theorem IsExact.mem_polyhedron_after (h : s.IsExact) (hobj : s.objectives = p)
    (hmargin : s.settings.epsilon = 0) (hscan : ∀ request ∈ requests, request.scan?.isSome)
    {y : Space p} : y ∈ (s.after requests).log.polyhedron p ↔ y ∈ s.log.polyhedron p ∧
      ∀ request ∈ requests, ∀ f, request.Makes p f → 0 ≤ f.form p y := by
  induction requests generalizing s with
  | nil => simp [after]
  | cons request requests ih =>
    obtain ⟨hrequest, hrest⟩ := List.forall_mem_cons.1 hscan
    have hsteps := reaches_respond s request
    obtain ⟨-, hobj', hset⟩ := h.sound.reaches hsteps
    have hafter : s.after (request :: requests) = (s.respond request).2.after requests := rfl
    rw [hafter, ih (h.reaches hsteps) (hobj'.trans hobj) (hset ▸ hmargin) hrest,
      h.mem_polyhedron_respond hobj hmargin hrequest, List.forall_mem_cons, and_assoc]

/-- Reports that are tried at all vertices, without a margin, made to a skeleton after any history
of requests: in whichever order they come, refused and rejected ones included, the vertices end up
at the same weights with the same values. -/
theorem positions_after_perm (h : build objectives point originating rays settings = .ok s)
    (hmargin : settings.epsilon = 0) (earlier : List (Request ℚ))
    {reports reports' : List (Request ℚ)}
    (hscan : ∀ request ∈ reports, request.scan?.isSome) (hperm : reports.Perm reports') :
    ((s.after earlier).after reports).positions = ((s.after earlier).after reports').positions := by
  have ht := isExact_after h hmargin.ge earlier
  obtain ⟨-, hobj, hset⟩ := isSound_after h earlier
  have hscan' : ∀ request ∈ reports', request.scan?.isSome :=
    fun request hrequest => hscan request (hperm.mem_iff.2 hrequest)
  have hpolyhedron : ((s.after earlier).after reports).log.polyhedron objectives =
      ((s.after earlier).after reports').log.polyhedron objectives := by
    ext y
    rw [ht.mem_polyhedron_after hobj (hset ▸ hmargin) hscan,
      ht.mem_polyhedron_after hobj (hset ▸ hmargin) hscan']
    simp only [hperm.mem_iff]
  have hpositions (requests : List (Request ℚ)) {y : List ℚ × ℚ} :
      y ∈ ((s.after earlier).after requests).positions ↔ y.1.length = objectives ∧
        Space.of objectives y.1 y.2 ∈
          (((s.after earlier).after requests).log.polyhedron objectives).extremePoints ℚ := by
    have hsteps := reaches_after (s.after earlier) requests
    obtain ⟨-, hobj', -⟩ := ht.sound.reaches hsteps
    exact (ht.reaches hsteps).mem_positions_iff (hobj'.trans hobj)
  ext y
  rw [hpositions, hpositions, hpolyhedron]

/-- Of two points, the worse one is stored if it comes first, and rejected if it comes last. -/
theorem positions_after_two_points : ∃ s : Skeleton ℚ,
    build 2 [3, 5] (some 0) [[1, -3]] ⟨0, true, .deferred⟩ = .ok s ∧
      let t := s.after [.nextWeight, .point [1, 8]]
      let reports : List (Request ℚ) :=
        [.pointAnywhere [2, 2], .pointAnywhere [1, 1], .rayAnywhere [0, 1]]
      (t.after reports).log.size ≠ (t.after reports.reverse).log.size ∧
        (t.after reports).positions = (t.after reports.reverse).positions := by
  have hrun :
      (build (α := ℚ) 2 [3, 5] (some 0) [[1, -3]] ⟨0, true, .deferred⟩).toOption.any fun s =>
      let t := s.after [.nextWeight, .point [1, 8]]
      let reports : List (Request ℚ) :=
        [.pointAnywhere [2, 2], .pointAnywhere [1, 1], .rayAnywhere [0, 1]]
      (t.after reports).log.size != (t.after reports.reverse).log.size := by
    decide +kernel
  obtain ⟨s, hs, hsizes⟩ := exists_ok_of_any hrun
  refine ⟨s, hs, bne_iff_ne.1 hsizes, ?_⟩
  exact positions_after_perm hs rfl _ (by simp [Request.scan?]) (List.reverse_perm _).symm

end Skeleton

end WeightPolyhedron
