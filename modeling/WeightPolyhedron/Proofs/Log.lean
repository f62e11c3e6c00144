import WeightPolyhedron.Facet.Log
import Mathlib.Data.List.Nodup

/-!
The log of facets: the sides of the simplex, and after them the facets of points and rays in the
order in which they were stored.
-/

namespace WeightPolyhedron

variable {α : Type}

namespace Facet

variable [Scalar α] {f : Facet α} {values : List α}

theorem ofVector_eq_ok {last : α} {kind : Kind} (h : ofVector values last kind = .ok f) :
    f = ⟨values ++ [last], kind⟩ := by
  unfold ofVector at h
  split_ifs at h
  split at h <;> cases h
  rfl

/-- Vectors that make a facet have entries, and finite ones only. -/
theorem exists_ofVector_iff {last : α} {kind : Kind} :
    (∃ f, ofVector values last kind = .ok f) ↔ values ≠ [] ∧ ∀ v ∈ values, Scalar.isFinite v := by
  unfold ofVector
  cases values with
  | nil => simp
  | cons v rest =>
    have hfinite : (v :: rest).zipIdx.find? (fun e => !Scalar.isFinite e.1) = none ↔
        ∀ w ∈ v :: rest, Scalar.isFinite w := by
      rw [List.find?_eq_none]
      constructor
      · intro hall w hw
        obtain ⟨i, hi, rfl⟩ := List.getElem_of_mem hw
        simpa using hall ((v :: rest)[i], i) (List.mem_zipIdx_iff_getElem?.2 (by simp))
      · rintro hall ⟨w, i⟩ hw
        simpa using hall w (List.fst_mem_of_mem_zipIdx hw)
    rw [← hfinite]
    simp only [List.isEmpty_cons, Bool.false_eq_true, if_false, ne_eq, reduceCtorEq,
      not_false_eq_true, true_and]
    constructor
    · intro hex
      obtain ⟨f, hf⟩ := hex
      split at hf
      · cases hf
      · assumption
    · intro hnone
      simp only [hnone]
      exact ⟨_, rfl⟩

theorem kind_of_ofPoint (h : ofPoint values = .ok f) : f.kind = .point := by
  rw [ofVector_eq_ok h]

theorem kind_of_ofRay (h : ofRay values = .ok f) : f.kind = .ray := by
  rw [ofVector_eq_ok h]

def IsReport (f : Facet α) (p : Nat) : Prop :=
  ∃ values, values.length = p ∧ (ofPoint values = .ok f ∨ ofRay values = .ok f)

variable {p : Nat}

theorem IsReport.eq_or_eq (h : f.IsReport p) : ∃ values, values.length = p ∧
    (f = ⟨values ++ [-1], .point⟩ ∨ f = ⟨values ++ [0], .ray⟩) := by
  obtain ⟨values, hlength, hf⟩ := h
  exact ⟨values, hlength, hf.imp ofVector_eq_ok ofVector_eq_ok⟩

theorem IsReport.objectives_eq (h : f.IsReport p) : f.objectives = p := by
  obtain ⟨values, hlength, rfl | rfl⟩ := h.eq_or_eq <;> cases values <;> simpa [objectives]

theorem IsReport.weightCoefficients_length (h : f.IsReport p) :
    f.weightCoefficients.length = p := by
  obtain ⟨values, hlength, rfl | rfl⟩ := h.eq_or_eq <;> simpa [weightCoefficients] using hlength

/-- A facet constrains the value if it stems from a point, and then bounds it from above. -/
theorem IsReport.valueCoefficient_eq (h : f.IsReport p) :
    f.valueCoefficient = if f.isVertical then 0 else -1 := by
  obtain ⟨values, -, rfl | rfl⟩ := h.eq_or_eq <;> simp [valueCoefficient, isVertical]

theorem IsReport.kind (h : f.IsReport p) : f.kind = .point ∨ f.kind = .ray := by
  obtain ⟨values, -, hf⟩ := h
  exact hf.imp kind_of_ofPoint kind_of_ofRay

end Facet

namespace FacetLog

variable {log : FacetLog α} {f g : Facet α} {i p : Nat}

def snoc (log : FacetLog α) (f : Facet α) : FacetLog α := { log with facets := log.facets.push f }

@[simp] theorem size_snoc : (log.snoc f).size = log.size + 1 := by
  simp [size, snoc]

theorem snoc_ne : log.snoc f ≠ log := by
  intro heq
  have hsize := congrArg size heq
  rw [size_snoc] at hsize
  exact Nat.succ_ne_self _ hsize

theorem get?_snoc : (log.snoc f).get? i = if i = log.size then some f else log.get? i :=
  Array.getElem?_push

theorem get?_snoc_of_lt (h : i < log.size) : (log.snoc f).get? i = log.get? i := by
  rw [get?_snoc, if_neg (Nat.ne_of_lt h)]

@[simp] theorem get?_snoc_size : (log.snoc f).get? log.size = some f := by
  simp [get?_snoc]

theorem lt_size_of_get? (h : log.get? i = some f) : i < log.size := by
  obtain ⟨hlt, -⟩ := Array.getElem?_eq_some_iff.1 h
  exact hlt

theorem exists_get? (h : i < log.size) : ∃ f, log.get? i = some f :=
  ⟨_, Array.getElem?_eq_getElem h⟩

theorem isVertical_snoc_of_lt (h : i < log.size) :
    (log.snoc f).isVertical i = log.isVertical i := by
  rw [isVertical, isVertical, get?_snoc_of_lt h]

theorem isVertical_of_get? (h : log.get? i = some f) : log.isVertical i = f.isVertical := by
  simp [isVertical, h]

theorem push_eq (log : FacetLog α) (h : f.objectives = log.objectives) :
    log.push f = .ok (log.size, log.snoc f) := by
  simp [push, h, size, snoc]

theorem eq_size_of_push {log' : FacetLog α} (h : log.push f = .ok (i, log')) : i = log.size := by
  unfold push at h
  split_ifs at h
  cases h
  rfl

variable [Scalar α]

/-- The sides of the simplex come first, and all other facets are reports. -/
structure IsSound (log : FacetLog α) (p : Nat) : Prop where
  objectives_eq : log.objectives = p
  boundary : ∀ i < p, log.get? i = Facet.boundary? p i
  reported : ∀ {i f}, p ≤ i → log.get? i = some f → f.IsReport p

theorem toList_ofSimplex (p : Nat) : (ofSimplex p : FacetLog α).facets.toList =
    (List.range p).map fun i => ⟨Facet.unitVector p i ++ [0], .boundary⟩ := by
  have hmap : (List.range p).filterMap (Facet.boundary? (α := α) p) =
      (List.range p).map fun i => ⟨Facet.unitVector p i ++ [0], .boundary⟩ := by
    rw [← List.filterMap_eq_map]
    apply List.filterMap_congr
    intro k hk
    simp [Facet.boundary?, List.mem_range.1 hk]
  simp [ofSimplex, appendBoundaries, empty, hmap]

theorem size_ofSimplex (p : Nat) : (ofSimplex p : FacetLog α).size = p := by
  rw [size, ← Array.length_toList, toList_ofSimplex, List.length_map, List.length_range]

theorem get?_ofSimplex (hi : i < p) : (ofSimplex p : FacetLog α).get? i = Facet.boundary? p i := by
  rw [get?, ← Array.getElem?_toList, toList_ofSimplex]
  simp [hi, Facet.boundary?]

/-- The facet of the first point comes right after the sides. -/
theorem get?_ofSimplex_snoc (p : Nat) (f : Facet α) : ((ofSimplex p).snoc f).get? p = some f := by
  have hget : ((ofSimplex p).snoc f).get? (ofSimplex p).size = some f := get?_snoc_size
  rwa [size_ofSimplex] at hget

theorem isSound_ofSimplex (p : Nat) : (ofSimplex p : FacetLog α).IsSound p where
  objectives_eq := rfl
  boundary _ := get?_ofSimplex
  reported {i f} hi hf := by
    have hlt := lt_size_of_get? hf
    rw [size_ofSimplex] at hlt
    omega

theorem IsSound.le_size (h : log.IsSound p) : p ≤ log.size := by
  rcases Nat.eq_zero_or_pos p with rfl | hp
  · exact Nat.zero_le _
  · have hlast : p - 1 < p := by omega
    have hget := h.boundary (p - 1) hlast
    rw [Facet.boundary?, if_pos hlast] at hget
    have hlt := lt_size_of_get? hget
    omega

theorem IsSound.isVertical_of_lt (h : log.IsSound p) (hi : i < p) : log.isVertical i = true := by
  have hget := h.boundary i hi
  rw [Facet.boundary?, if_pos hi] at hget
  exact isVertical_of_get? hget

theorem IsSound.snoc (h : log.IsSound p) (hf : f.IsReport p) : (log.snoc f).IsSound p where
  objectives_eq := h.objectives_eq
  boundary i hi := by rw [get?_snoc_of_lt (Nat.lt_of_lt_of_le hi h.le_size), h.boundary i hi]
  reported {i g} hi hg := by
    rw [get?_snoc] at hg
    split_ifs at hg with hlast
    · exact Option.some.inj hg ▸ hf
    · exact h.reported hi hg

end FacetLog

end WeightPolyhedron
