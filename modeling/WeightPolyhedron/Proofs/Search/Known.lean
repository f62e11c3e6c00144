import Mathlib
import WeightPolyhedron.Search
import WeightPolyhedron.Proofs.Exact.Complete
import WeightPolyhedron.Proofs.Exact.Feasible

/-!
What a skeleton knows of the problem that is searched. Its facets stem from answers of an oracle,
and every vertex that needs no test is confirmed: nothing that the problem attains lies below it by
more than the margin. Once no vertex needs a test, the answers describe the whole problem.
-/

namespace WeightPolyhedron

/-- What a problem over `p` objectives attains: outcome vectors, and directions without bound. -/
structure Problem (p : Nat) where
  outcomes : Finset (List ℚ)
  directions : Finset (List ℚ)
  outcomes_length : ∀ {y}, y ∈ outcomes → y.length = p
  directions_length : ∀ {r}, r ∈ directions → r.length = p

def Answer.facet : Answer ℚ → Facet ℚ
  | .point outcome => ⟨outcome ++ [-1], .point⟩
  | .ray direction => ⟨direction ++ [0], .ray⟩

namespace Problem

variable {p : Nat} {P : Problem p} {margin : ℚ} {v : Vertex ℚ} {w y r : List ℚ}

def Bounded (P : Problem p) (w : List ℚ) : Prop := ∀ r ∈ P.directions, 0 ≤ dot r w

/-- A right answer is a direction along which the weighted sum falls, or, where there is none, an
outcome of least weighted sum. -/
def IsAnswer (P : Problem p) (w : List ℚ) : Answer ℚ → Prop
  | .point y => P.Bounded w ∧ y ∈ P.outcomes ∧ ∀ y' ∈ P.outcomes, dot y w ≤ dot y' w
  | .ray r => r ∈ P.directions ∧ dot r w < 0

/-- The vertex lies over a weight without unbounded directions, and no outcome lies below it by more
than the margin. -/
structure Confirms (P : Problem p) (margin : ℚ) (v : Vertex ℚ) : Prop where
  bounded : P.Bounded v.weight
  value_le : ∀ y ∈ P.outcomes, v.value ≤ dot y v.weight + margin

theorem IsAnswer.confirms (h : P.IsAnswer v.weight (.point y))
    (hle : v.value ≤ dot y v.weight + margin) : P.Confirms margin v where
  bounded := h.1
  value_le y' hy' := by linarith [h.2.2 y' hy']

end Problem

namespace Answer

variable {p : Nat} {w y r : List ℚ} {z : ℚ}

theorem evaluate_point (y w : List ℚ) (z : ℚ) : (point y).facet.evaluate w z = dot y w - z := by
  rw [Facet.evaluate_eq]
  simp [facet, Facet.weightCoefficients, Facet.valueCoefficient, sub_eq_add_neg]

theorem evaluate_ray (r w : List ℚ) (z : ℚ) : (ray r).facet.evaluate w z = dot r w := by
  rw [Facet.evaluate_eq]
  simp [facet, Facet.weightCoefficients, Facet.valueCoefficient]

theorem kind_ray (r : List ℚ) : (ray r).facet.kind ≠ .point := by
  simp [facet]

theorem isReport_point (hp : 0 < p) (hy : y.length = p) : (point y).facet.IsReport p := by
  have hne : y ≠ [] := List.ne_nil_of_length_pos (hy.symm ▸ hp)
  exact ⟨y, hy, .inl (Facet.ofVector_of_ne_nil hne)⟩

theorem isReport_ray (hp : 0 < p) (hr : r.length = p) : (ray r).facet.IsReport p := by
  have hne : r ≠ [] := List.ne_nil_of_length_pos (hr.symm ▸ hp)
  exact ⟨r, hr, .inr (Facet.ofVector_of_ne_nil hne)⟩

end Answer

namespace Skeleton

variable {p : Nat} {P : Problem p} {margin : ℚ} {s s' : Skeleton ℚ} {known known' : Set (Answer ℚ)}
  {awaited : Option NodeKey} {a : Answer ℚ} {seed n : NodeKey} {v : Vertex ℚ} {w y : List ℚ}

/-- The skeleton stores known answers only, and all vertices are confirmed but those that are
untested and the one whose answer is awaited. -/
structure Knows (s : Skeleton ℚ) (P : Problem p) (margin : ℚ) (known : Set (Answer ℚ))
    (awaited : Option NodeKey) : Prop where
  exact : s.IsExact
  objectives_eq : s.objectives = p
  margin_eq : s.settings.epsilon = margin
  stored : ∀ {i f}, s.log.get? i = some f → f.kind ≠ .boundary → ∃ a ∈ known, f = a.facet
  confirmed : ∀ {n v}, s.mesh.vertex? n = some v → n ∉ s.mesh.graph.untested →
    awaited ≠ some n → P.Confirms margin v

namespace Knows

theorem mono (h : s.Knows P margin known awaited) (hknown : known ⊆ known') :
    s.Knows P margin known' awaited :=
  { h with stored := fun hf hkind => (h.stored hf hkind).imp fun _ ha => ⟨hknown ha.1, ha.2⟩ }

theorem note (h : s.Knows P margin known awaited) (stats : CutStats) :
    Knows { s with stats } P margin known awaited where
  exact := h.exact.step (.note s stats)
  objectives_eq := h.objectives_eq
  margin_eq := h.margin_eq
  stored := h.stored
  confirmed := h.confirmed

/-- Once a node is taken, its answer is awaited. -/
theorem taken (h : s.Knows P margin known none) (hn : s.mesh.graph.takeUntested.1 = some n) :
    s.taken.Knows P margin known (some n) where
  exact := h.exact.step (.take s)
  objectives_eq := h.objectives_eq
  margin_eq := h.margin_eq
  stored := h.stored
  confirmed {k v} hv hk hne := by
    have hv : s.mesh.vertex? k = some v := (Mesh.vertex?_takeUntested s.mesh k).symm.trans hv
    apply h.confirmed hv ?_ (Option.some_ne_none k).symm
    rw [Skeleton.taken, (Graph.takeUntested_eq_some hn).2] at hk
    exact fun hc => hk ((List.mem_erase_of_ne fun heq => hne (congrArg some heq.symm)).2 hc)

/-- An awaited vertex that is confirmed is awaited no more. -/
theorem confirm (h : s.Knows P margin known (some n)) (hv : s.mesh.vertex? n = some v)
    (hconfirms : P.Confirms margin v) : s.Knows P margin known none := by
  refine { h with confirmed := fun {k u} hu hk _ => ?_ }
  by_cases hkn : some n = some k
  · obtain rfl := Option.some.inj hkn
    obtain rfl := Option.some.inj (hv.symm.trans hu)
    exact hconfirms
  · exact h.confirmed hu hk hkn

/-- A cut with a known answer confirms what is awaited, if it violates that, and was found for the
node handed out last: where the vertex there is lowered, it comes to lie on the answer, and
otherwise it is removed. -/
theorem cut (h : s.Knows P margin known awaited) (ha : a ∈ known)
    (hreport : a.facet.IsReport s.objectives)
    (htested : s.Tested a.facet (s.toleranceFor a.facet) seed)
    (hcut : s.cut a.facet seed = .ok () s')
    (hawaited : ∀ n, awaited = some n → s.mesh.ViolatedAt a.facet n)
    (hlast : ∀ n v, s.mesh.graph.lastTaken = some n → s.mesh.vertex? n = some v →
      a.facet.kind = .point → P.IsAnswer v.weight a) :
    s'.Knows P margin known none := by
  have hexact : s'.IsExact := h.exact.step (.cut hreport htested hcut)
  have hviolated := h.exact.violatedAt htested
  obtain ⟨hobj, hset, hlog, -, -⟩ := h.exact.sound.cut_eq_ok hreport hcut
  obtain ⟨r, created, origin, hexactcut⟩ := h.exact.cut hreport hviolated hcut
  refine ⟨hexact, hobj.trans h.objectives_eq, hset ▸ h.margin_eq, ?_, ?_⟩
  · intro i f hf hkind
    rw [hlog, FacetLog.get?_snoc] at hf
    split_ifs at hf
    · exact ⟨a, ha, (Option.some.inj hf).symm⟩
    · exact h.stored hf hkind
  · intro n v hv hn _
    rcases hexactcut.effect.of_unmarked hv hn with ⟨hr, hv', hn'⟩ | ⟨hl, hkind, u, hu, hdescend⟩
    · apply h.confirmed hv' hn'
      intro hc
      exact hr ((h.exact.mesh.mem_region h.exact.sound.mesh hreport hviolated
        hexactcut.around).2 (hawaited n hc))
    · have hanswer : P.IsAnswer v.weight a := Vertex.weight_descend hdescend ▸ hlast n u hl hu hkind
      have hmargin : 0 ≤ margin := h.margin_eq ▸ h.exact.margin_nonneg
      have hnew : s'.log.get? s.log.size = some a.facet := hlog ▸ FacetLog.get?_snoc_size
      have hbelow := hexact.facetValue_nonneg hv hnew
      cases a with
      | ray r => cases hkind
      | point y =>
        rw [Vertex.facetValue, Answer.evaluate_point] at hbelow
        apply hanswer.confirms
        linarith

variable {make : List ℚ → Except (Facet.Error ℚ) (Facet ℚ)} {values : List ℚ}
  {tolerance : Tolerance ℚ} {Candidate : Facet ℚ → NodeKey → Prop} {b : Bool}

theorem of_reported (h : s.Knows P margin known awaited) (hsuits : s.Suits make tolerance)
    (hmake : ∀ f, make values = .ok f → f = a.facet)
    (hreported : s.Reported make values tolerance Candidate b s')
    (hawaited : ∀ seed, Candidate a.facet seed → s.Tested a.facet tolerance seed →
      ∀ n, awaited = some n → s.mesh.ViolatedAt a.facet n)
    (hlast : ∀ n v, s.mesh.graph.lastTaken = some n → s.mesh.vertex? n = some v →
      a.facet.kind = .point → P.IsAnswer v.weight a)
    (hrejected : (∀ n, Candidate a.facet n → ¬ s.Tested a.facet tolerance n) →
      s.Knows P margin known none) :
    s'.Knows P margin (if b then insert a known else known) none := by
  obtain ⟨f, hlength, hf, htries⟩ := hreported
  obtain rfl := hmake f hf
  obtain ⟨hreport, rfl⟩ := hsuits.isReport hlength hf
  cases b with
  | false =>
    obtain ⟨hnone, rfl⟩ := htries
    exact (hrejected hnone).note _
  | true =>
    obtain ⟨seed, hseed, htested, hcut⟩ := htries
    exact (h.mono (Set.subset_insert a known)).cut (Set.mem_insert a known) hreport htested hcut
      (hawaited seed hseed htested) hlast

/-- A ray that is reported before any weight is handed out. -/
theorem reportRayAnywhere_ends {r : List ℚ} (h : s.Knows P margin known none)
    (hr : .ray r ∈ known) : Ends (reportRayAnywhere r) s
      (fun _ s' => s'.Knows P margin known none) (fun _ _ => True) := by
  apply (Skeleton.reportRayAnywhere_ends r).mono ?_ fun _ _ _ => trivial
  intro b s' hreported
  have hknows := h.of_reported (a := .ray r) (.inr ⟨rfl, rfl⟩) (fun f => Facet.ofVector_eq_ok)
    hreported (fun _ _ _ n hn => absurd hn.symm (Option.some_ne_none n))
    (fun _ _ _ _ hkind => absurd hkind (Answer.kind_ray r)) fun _ => h
  apply hknows.mono
  split
  · exact Set.insert_subset hr subset_rfl
  · exact subset_rfl

theorem reportRaysFrom_ends (rays : List (List ℚ)) (hrays : ∀ r ∈ rays, .ray r ∈ known)
    (total : CutStats) (applied : Nat) (h : s.Knows P margin known none) :
    Ends (reportRaysFrom total applied rays) s
      (fun _ s' => s'.Knows P margin known none) (fun _ _ => True) := by
  induction rays generalizing s total applied with
  | nil => exact .bind (.modify (.pure (h.note total)))
  | cons r rays ih =>
    apply (h.reportRayAnywhere_ends (hrays r (List.mem_cons_self ..))).andThen
    intro b s' hs
    exact .bind (.get (ih (fun r' hr' => hrays r' (List.mem_cons_of_mem _ hr')) _ _ hs))

/-- The answer for the weight handed out is an outcome: it is taken, or does not lie below the
vertex by more than the margin. -/
theorem reportPoint_ends (h : s.Knows P margin known (some n))
    (hlast : s.mesh.graph.lastTaken = some n) (hv : s.mesh.vertex? n = some v)
    (ha : P.IsAnswer v.weight (.point y)) : Ends (reportPoint y) s
      (fun b s' => s'.Knows P margin (if b then insert (.point y) known else known) none)
      (fun _ _ => True) := by
  apply (Skeleton.reportPoint_ends y).mono ?_ fun _ _ _ => trivial
  intro b s' hreported
  apply h.of_reported (a := .point y) (.inl ⟨rfl, rfl⟩) (fun f => Facet.ofVector_eq_ok) hreported
  · intro seed hseed htested k hk
    obtain rfl := Option.some.inj hk
    obtain rfl := hseed n hlast
    exact h.exact.violatedAt htested
  · intro k u hk hu _
    obtain rfl := Option.some.inj (hlast.symm.trans hk)
    exact Option.some.inj (hv.symm.trans hu) ▸ ha
  · intro hnone
    have hle : ¬ v.facetValue (Answer.point y).facet < -s.settings.epsilon := by
      intro hlt
      exact hnone n (fun k hk => Option.some.inj (hlast.symm.trans hk))
        ⟨v, hv, by simpa [Facet.violates, Skeleton.tolerance] using hlt⟩
    rw [Vertex.facetValue, Answer.evaluate_point, h.margin_eq] at hle
    apply h.confirm hv (ha.confirms _)
    linarith

/-- The answer for the weight handed out is a direction: it violates the vertex there, so it is
taken. -/
theorem reportRay_ends {r : List ℚ} (h : s.Knows P margin known (some n))
    (hlast : s.mesh.graph.lastTaken = some n) (hv : s.mesh.vertex? n = some v)
    (ha : P.IsAnswer v.weight (.ray r)) : Ends (reportRay r) s
      (fun _ s' => s'.Knows P margin (insert (.ray r) known) none) (fun _ _ => True) := by
  have hviolates : (Answer.ray r).facet.violates v .strict := by
    simpa [Facet.violates, Vertex.facetValue, Answer.evaluate_ray] using ha.2
  apply (Skeleton.reportRay_ends r).mono ?_ fun _ _ _ => trivial
  intro _ s' hreported
  obtain ⟨b, hreported⟩ := hreported
  have hknows : s'.Knows P margin (if b then insert (.ray r) known else known) none := by
    apply h.of_reported (a := .ray r) (.inr ⟨rfl, rfl⟩) (fun f => Facet.ofVector_eq_ok) hreported
    · intro _ _ _ k hk
      exact Option.some.inj hk ▸ ⟨v, hv, hviolates⟩
    · exact fun _ _ _ _ hkind => absurd hkind (Answer.kind_ray r)
    · intro hnone
      exact absurd ⟨v, hv, hviolates⟩
        (hnone n fun k hk _ => Option.some.inj (hlast.symm.trans hk))
  apply hknows.mono
  split
  · exact subset_rfl
  · exact Set.subset_insert ..

variable (h : s.Knows P margin known none) (hdone : s.mesh.graph.untested = [])

include h hdone

/-- What holds up to some slack at all vertices holds wherever the known answers leave a value. -/
theorem neg_le_evaluate {f : Facet ℚ} {z : ℚ} (slack : ℚ) (hw : IsWeight p w)
    (hz : s.log.Allows w z) (hf : f.IsReport p)
    (hall : ∀ v, P.Confirms margin v → -slack ≤ v.facetValue f) : -slack ≤ f.evaluate w z := by
  have hobj := h.objectives_eq
  obtain ⟨n, v, hv, hle⟩ := h.exact.exists_facetValue_le (hobj ▸ hf) (hobj ▸ hw) hz
  have hconfirms := h.confirmed hv (by simp [hdone]) (Option.some_ne_none n).symm
  exact (hall v hconfirms).trans hle

/-- Weights that the known rays leave are bounded along all directions. -/
theorem bounded (hw : IsWeight p w) (hrays : ∀ r, .ray r ∈ known → 0 ≤ dot r w) : P.Bounded w := by
  have hp : 0 < p := h.objectives_eq ▸ h.exact.sound.positive
  obtain ⟨z, hz⟩ : ∃ z, s.log.Allows w z := by
    apply h.exact.sound.log.exists_allows
    intro i f hf hkind
    obtain ⟨a, ha, rfl⟩ := h.stored hf (by simp [hkind])
    cases a with
    | point y => cases hkind
    | ray r => exact (Answer.evaluate_ray r w 0).symm ▸ hrays r ha
  intro r hr
  have hnonneg := h.neg_le_evaluate hdone 0 hw hz
    (Answer.isReport_ray hp (P.directions_length hr)) fun v hv => by
      rw [Vertex.facetValue, Answer.evaluate_ray, neg_zero]
      exact hv.bounded r hr
  rwa [Answer.evaluate_ray, neg_zero] at hnonneg

/-- The least of the known outcomes is as low as all outcomes, but for the margin. -/
theorem exists_point {points : List (List ℚ)} (hne : points ≠ [])
    (hpoints : ∀ y, .point y ∈ known → y ∈ points) (hw : IsWeight p w)
    (hrays : ∀ r, .ray r ∈ known → 0 ≤ dot r w) :
    ∃ y ∈ points, ∀ y' ∈ P.outcomes, dot y w - margin ≤ dot y' w := by
  have hp : 0 < p := h.objectives_eq ▸ h.exact.sound.positive
  obtain ⟨y, hy, hleast⟩ := Finset.exists_min_image points.toFinset (dot · w)
    (List.toFinset_nonempty_iff points |>.2 hne)
  rw [List.mem_toFinset] at hy
  have hz : s.log.Allows w (dot y w) := by
    intro i f hf hkind
    obtain ⟨a, ha, rfl⟩ := h.stored hf hkind
    cases a with
    | point y' =>
      rw [Answer.evaluate_point, sub_nonneg]
      exact hleast y' (List.mem_toFinset.2 (hpoints y' ha))
    | ray r => exact (Answer.evaluate_ray r w _).symm ▸ hrays r ha
  refine ⟨y, hy, fun y' hy' => ?_⟩
  have hle := h.neg_le_evaluate hdone margin hw hz
    (Answer.isReport_point hp (P.outcomes_length hy')) fun v hv => by
      rw [Vertex.facetValue, Answer.evaluate_point]
      linarith [hv.value_le y' hy']
  rw [Answer.evaluate_point] at hle
  linarith

end Knows

end Skeleton

end WeightPolyhedron
