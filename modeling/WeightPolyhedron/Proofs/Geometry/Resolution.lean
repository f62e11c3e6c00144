import Mathlib
import WeightPolyhedron.Proofs.Geometry.Cone
import WeightPolyhedron.Proofs.Geometry.Cut

/-!
Degenerate arrangements. Where half-spaces pass through nodes that others define already, points of
nodes coincide and have more tight half-spaces than they should. Such an arrangement is resolved by
simple ones: its half-spaces are moved outwards by shifts that vanish in the limit, and the points
of the nodes converge.
-/

namespace WeightPolyhedron

open Filter Topology

variable {ι κ W : Type} [AddCommGroup W] [Module ℚ W]

namespace Arrangement

def shifted (A : Arrangement W) (δ : ℕ → ℚ) : Arrangement W :=
  { A with side := fun j => A.side j + δ j • A.level }

/-- The arrangements differ only in later half-spaces. -/
structure AgreesBelow (A B : Arrangement W) (size : ℕ) : Prop where
  level_eq : A.level = B.level
  down_eq : A.down = B.down
  side_eq : ∀ {j}, j < size → A.side j = B.side j
  vertical_eq : ∀ {j}, j < size → A.vertical j = B.vertical j

structure IsResolution (A : Arrangement W) (p size : ℕ) (nodes : Set ι) (F : ι → Finset ℕ)
    (pos : ι → W) (shift : ℕ → ℚ → ℚ) (place : ι → ℚ → W) : Prop where
  shift_nonneg : ∀ j t, 0 ≤ shift j t
  shift_tendsto : ∀ j, Tendsto (shift j) (𝓝[>] 0) (𝓝 0)
  place_tendsto : ∀ {v}, v ∈ nodes → ∀ g : W →ₗ[ℚ] ℚ,
    Tendsto (fun t => g (place v t)) (𝓝[>] 0) (𝓝 (g (pos v)))
  simple : ∀ᶠ t in 𝓝[>] 0, (A.shifted (shift · t)).IsSimple p size nodes F (place · t)

variable {A B : Arrangement W} {p size j : ℕ} {nodes : Set ι} {F : ι → Finset ℕ} {x pos : ι → W}
  {shift : ℕ → ℚ → ℚ} {place : ι → ℚ → W} {v u : ι} {y : W} {δ : ℕ → ℚ} {g : W →ₗ[ℚ] ℚ}

@[simp] theorem side_shifted (A : Arrangement W) (δ : ℕ → ℚ) (j : ℕ) (y : W) :
    (A.shifted δ).side j y = A.side j y + δ j * A.level y := by
  simp [shifted]

@[simp] theorem down_shifted (A : Arrangement W) (δ : ℕ → ℚ) : (A.shifted δ).down = A.down := rfl

theorem IsUpright.shifted (h : A.IsUpright size) (δ : ℕ → ℚ) : (A.shifted δ).IsUpright size where
  level_down := h.level_down
  down_ne := h.down_ne
  side_down hj hvertical := by
    rw [side_shifted, down_shifted, h.level_down, mul_zero, add_zero]
    exact h.side_down hj hvertical
  side_down_pos hj hvertical := by
    rw [side_shifted, down_shifted, h.level_down, mul_zero, add_zero]
    exact h.side_down_pos hj hvertical

theorem Admits.shifted (h : A.Admits size y) (hδ : ∀ j, 0 ≤ δ j) : (A.shifted δ).Admits size y := by
  refine ⟨h.1, fun j hj => ?_⟩
  rw [side_shifted, h.1, mul_one]
  exact add_nonneg (h.2 j hj) (hδ j)

theorem IsSimple.congr (h : A.IsSimple p size nodes F x) (hAB : A.AgreesBelow B size) :
    B.IsSimple p size nodes F x where
  upright := by
    obtain ⟨hdown, hne, hzero, hpos⟩ := h.upright
    refine ⟨by rwa [← hAB.level_eq, ← hAB.down_eq], by rwa [← hAB.down_eq], ?_, ?_⟩
    · intro j hj hvertical
      rw [← hAB.side_eq hj, ← hAB.down_eq]
      exact hzero hj (hAB.vertical_eq hj ▸ hvertical)
    · intro j hj hvertical
      rw [← hAB.side_eq hj, ← hAB.down_eq]
      exact hpos hj (hAB.vertical_eq hj ▸ hvertical)
  level_eq hv := hAB.level_eq ▸ h.level_eq hv
  facets_lt := h.facets_lt
  nonneg hv hj := hAB.side_eq hj ▸ h.nonneg hv hj
  tight_iff hv hj := hAB.side_eq hj ▸ h.tight_iff hv hj
  card_eq := h.card_eq
  spans hv hd hall := h.spans hv (hAB.level_eq ▸ hd) fun j hj =>
    (hAB.side_eq (h.facets_lt hv hj)).symm ▸ hall j hj
  inj := h.inj
  ends hv hi := (h.ends hv hi).imp_left fun hall j hj =>
    hAB.vertical_eq (h.facets_lt hv (Finset.mem_of_mem_erase hj)) ▸ hall j hj
  inhabited hy := h.inhabited ⟨hAB.level_eq ▸ hy.1, fun j hj => (hAB.side_eq hj).symm ▸ hy.2 j hj⟩

theorem AgreesBelow.shifted {δ' : ℕ → ℚ} (h : A.AgreesBelow B size) (hδ : ∀ j < size, δ j = δ' j) :
    (A.shifted δ).AgreesBelow (B.shifted δ') size where
  level_eq := h.level_eq
  down_eq := h.down_eq
  side_eq hj := by simp only [Arrangement.shifted, h.side_eq hj, hδ _ hj, h.level_eq]
  vertical_eq := h.vertical_eq

/-- The same nodes under other names. -/
theorem IsSimple.comap (h : A.IsSimple p size nodes F x) {names : Set κ} {origin : κ → ι}
    {F' : κ → Finset ℕ} {x' : κ → W} (hbij : Set.BijOn origin names nodes)
    (hF : ∀ k ∈ names, F' k = F (origin k)) (hx : ∀ k ∈ names, x' k = x (origin k)) :
    A.IsSimple p size names F' x' where
  upright := h.upright
  level_eq hk := hx _ hk ▸ h.level_eq (hbij.mapsTo hk)
  facets_lt hk hj := h.facets_lt (hbij.mapsTo hk) (hF _ hk ▸ hj)
  nonneg hk hj := hx _ hk ▸ h.nonneg (hbij.mapsTo hk) hj
  tight_iff hk hj := by
    rw [hx _ hk, hF _ hk]
    exact h.tight_iff (hbij.mapsTo hk) hj
  card_eq hk := hF _ hk ▸ h.card_eq (hbij.mapsTo hk)
  spans hk hd hall := h.spans (hbij.mapsTo hk) hd (hF _ hk ▸ hall)
  inj hk hl heq := by
    rw [hF _ hk, hF _ hl] at heq
    exact hbij.injOn hk hl (h.inj (hbij.mapsTo hk) (hbij.mapsTo hl) heq)
  ends {k i} hk hi := by
    rw [hF _ hk] at hi ⊢
    apply (h.ends (hbij.mapsTo hk) hi).imp_right
    intro hother
    obtain ⟨u, hu, hne, hsub⟩ := hother
    obtain ⟨l, hl, rfl⟩ := hbij.surjOn hu
    exact ⟨l, hl, fun hlk => hne (hlk ▸ rfl), hF _ hl ▸ hsub⟩
  inhabited hy := by
    obtain ⟨v, hv⟩ := h.inhabited hy
    obtain ⟨k, hk, -⟩ := hbij.surjOn hv
    exact ⟨k, hk⟩

namespace IsResolution

theorem comap (h : A.IsResolution p size nodes F pos shift place) {names : Set κ}
    {origin : κ → ι} {F' : κ → Finset ℕ} {pos' : κ → W} (hbij : Set.BijOn origin names nodes)
    (hF : ∀ k ∈ names, F' k = F (origin k)) (hpos : ∀ k ∈ names, pos' k = pos (origin k)) :
    A.IsResolution p size names F' pos' shift (fun k => place (origin k)) where
  shift_nonneg := h.shift_nonneg
  shift_tendsto := h.shift_tendsto
  place_tendsto hk g := hpos _ hk ▸ h.place_tendsto (hbij.mapsTo hk) g
  simple := h.simple.mono fun _ ht => ht.comap hbij hF fun _ _ => rfl

theorem finite (h : A.IsResolution p size nodes F pos shift place) : nodes.Finite := by
  obtain ⟨t, ht⟩ := h.simple.exists
  exact ht.finite

theorem side_tendsto (h : A.IsResolution p size nodes F pos shift place) (hv : v ∈ nodes) (j : ℕ) :
    Tendsto (fun t => (A.shifted (shift · t)).side j (place v t)) (𝓝[>] 0)
    (𝓝 (A.side j (pos v))) := by
  have hlim := (h.place_tendsto hv (A.side j)).add
    ((h.shift_tendsto j).mul (h.place_tendsto hv A.level))
  simpa only [side_shifted, zero_mul, add_zero] using hlim

theorem level_eq (h : A.IsResolution p size nodes F pos shift place) (hv : v ∈ nodes) :
    A.level (pos v) = 1 :=
  tendsto_nhds_unique (h.place_tendsto hv A.level)
    (tendsto_const_nhds.congr' (h.simple.mono fun _ ht => (ht.level_eq hv).symm))

/-- No half-space excludes the point of a node. -/
theorem side_nonneg (h : A.IsResolution p size nodes F pos shift place) (hv : v ∈ nodes)
    (hj : j < size) : 0 ≤ A.side j (pos v) :=
  ge_of_tendsto (h.side_tendsto hv j) (h.simple.mono fun _ ht => ht.nonneg hv hj)

/-- A functional that does not grow downwards is bounded by its values at the nodes. -/
theorem exists_le (h : A.IsResolution p size nodes F pos shift place) (hdown : g A.down ≤ 0)
    (hy : A.Admits size y) : ∃ v ∈ nodes, g y ≤ g (pos v) := by
  by_contra hnone
  push Not at hnone
  have hbelow : ∀ᶠ t in 𝓝[>] (0 : ℚ), ∀ v ∈ nodes, g (place v t) < g y :=
    (Filter.eventually_all_finite h.finite).2 fun v hv =>
      (h.place_tendsto hv g).eventually_lt_const (hnone v hv)
  obtain ⟨t, hsimple, hlt⟩ := (h.simple.and hbelow).exists
  obtain ⟨v, hv, hle⟩ := hsimple.exists_le hdown (hy.shifted fun j => h.shift_nonneg j t)
  exact absurd hle (not_le.2 (hlt v hv))

theorem level_down (h : A.IsResolution p size nodes F pos shift place) : A.level A.down = 0 := by
  obtain ⟨t, ht⟩ := h.simple.exists
  exact ht.upright.level_down

/-- Every point of the polyhedron lies below a convex combination of nodes: no functional separates
it from them and from the way down. -/
theorem exists_combination (h : A.IsResolution p size nodes F pos shift place)
    (hy : A.Admits size y) : ∃ (c : ι → ℚ) (depth : ℚ), 0 ≤ depth ∧ (∀ v ∈ nodes, 0 ≤ c v) ∧
      ∑ v ∈ h.finite.toFinset, c v = 1 ∧
        y = ∑ v ∈ h.finite.toFinset, c v • pos v + depth • A.down := by
  classical
  rcases inCone_or_separated (Finset.insertNone h.finite.toFinset)
    (fun o => o.elim A.down pos) y with
    ⟨c, hc, hsum⟩ | ⟨g, hg, hpos⟩
  · simp only [Finset.sum_insertNone, Option.elim_none, Option.elim_some] at hsum
    have hnonneg {v : ι} (hv : v ∈ nodes) : 0 ≤ c (some v) :=
      hc _ (Finset.some_mem_insertNone.2 (h.finite.mem_toFinset.2 hv))
    refine ⟨fun v => c (some v), c none, hc none (Finset.none_mem_insertNone ..),
      fun v hv => hnonneg hv, ?_, hsum.trans (add_comm _ _)⟩
    have hlevel := congrArg A.level hsum
    rw [hy.1, map_add, map_smul, map_sum, h.level_down, smul_zero, zero_add] at hlevel
    rw [hlevel]
    apply Finset.sum_congr rfl
    intro v hv
    rw [map_smul, h.level_eq (h.finite.mem_toFinset.1 hv), smul_eq_mul, mul_one]
  · obtain ⟨v, hv, hle⟩ := h.exists_le (hg none (Finset.none_mem_insertNone ..)) hy
    have hneg := hg (some v) (Finset.some_mem_insertNone.2 (h.finite.mem_toFinset.2 hv))
    exact absurd (hle.trans hneg) (not_le.2 hpos)

noncomputable def touching (h : A.IsResolution p size nodes F pos shift place) (g : W →ₗ[ℚ] ℚ) :
    Finset ι :=
  h.finite.toFinset.filter fun v => g (pos v) = 0

theorem mem_touching (h : A.IsResolution p size nodes F pos shift place) :
    v ∈ h.touching g ↔ v ∈ nodes ∧ g (pos v) = 0 := by
  simp [touching]

/-- A shift for the half-space that exceeds what the places of these nodes lack. -/
noncomputable def margin (h : A.IsResolution p size nodes F pos shift place) (g : W →ₗ[ℚ] ℚ)
    (t : ℚ) : ℚ :=
  |t| + ∑ v ∈ h.touching g, |g (place v t)|

theorem margin_nonneg (h : A.IsResolution p size nodes F pos shift place) (g : W →ₗ[ℚ] ℚ) (t : ℚ) :
    0 ≤ h.margin g t :=
  add_nonneg (abs_nonneg t) (Finset.sum_nonneg fun _ _ => abs_nonneg _)

theorem margin_tendsto (h : A.IsResolution p size nodes F pos shift place) (g : W →ₗ[ℚ] ℚ) :
    Tendsto (h.margin g) (𝓝[>] 0) (𝓝 0) := by
  have habs : Tendsto (fun t : ℚ => |t|) (𝓝[>] 0) (𝓝 0) := by
    simpa using (continuous_abs.tendsto (0 : ℚ)).mono_left nhdsWithin_le_nhds
  have hzero : Tendsto (fun t => ∑ v ∈ h.touching g, |g (place v t)|) (𝓝[>] 0) (𝓝 0) := by
    have hall := tendsto_finsetSum (h.touching g) fun v hv =>
      (h.place_tendsto (h.mem_touching.1 hv).1 g).abs
    rwa [Finset.sum_eq_zero fun v hv => by rw [(h.mem_touching.1 hv).2, abs_zero]] at hall
  have hboth := habs.add hzero
  rwa [add_zero] at hboth

theorem lt_margin (h : A.IsResolution p size nodes F pos shift place) (hv : v ∈ h.touching g)
    {t : ℚ} (ht : 0 < t) : 0 < g (place v t) + h.margin g t := by
  have hone := Finset.single_le_sum (f := fun v => |g (place v t)|) (fun v _ => abs_nonneg _) hv
  have habs := neg_abs_le (g (place v t))
  have hpos : 0 < |t| := abs_pos.2 ht.ne'
  unfold margin
  linarith

/-- A half-space can be moved so far, and no farther in the limit, that it excludes the nodes beyond
it and has all others inside, those on its boundary included. -/
theorem exists_margin (h : A.IsResolution p size nodes F pos shift place) (g : W →ₗ[ℚ] ℚ) :
    ∃ margin : ℚ → ℚ, (∀ t, 0 ≤ margin t) ∧ Tendsto margin (𝓝[>] 0) (𝓝 0) ∧
      ∀ᶠ t in 𝓝[>] 0, ∀ v ∈ nodes, (g (pos v) < 0 → g (place v t) + margin t < 0) ∧
        (0 ≤ g (pos v) → 0 < g (place v t) + margin t) := by
  refine ⟨h.margin g, h.margin_nonneg g, h.margin_tendsto g, ?_⟩
  apply (Filter.eventually_all_finite h.finite).2
  intro v hv
  have hside := (h.place_tendsto hv g).add (h.margin_tendsto g)
  rw [add_zero] at hside
  rcases lt_trichotomy (g (pos v)) 0 with hneg | hzero | hpos
  · filter_upwards [hside.eventually_lt_const hneg] with t ht
    exact ⟨fun _ => ht, fun hc => absurd hc (not_le.2 hneg)⟩
  · filter_upwards [self_mem_nhdsWithin] with t ht
    exact ⟨fun hc => absurd hzero hc.ne, fun _ => h.lt_margin (h.mem_touching.2 ⟨hv, hzero⟩) ht⟩
  · filter_upwards [hside.eventually_const_lt hpos] with t ht
    exact ⟨fun hc => absurd hc (not_lt.2 hpos.le), fun _ => ht⟩

/-- Where a functional is negative, the graph of the nodes is connected. -/
theorem mem_of_closed (h : A.IsResolution p size nodes F pos shift place) (hdown : 0 ≤ g A.down)
    {C : Set ι} (hC : ∀ {v}, v ∈ C → v ∈ nodes ∧ g (pos v) < 0) (hne : C.Nonempty)
    (hclosed : ∀ {v u}, v ∈ C → u ∈ nodes → g (pos u) < 0 → Adjacent p F v u → u ∈ C)
    (hu : u ∈ nodes) (hgu : g (pos u) < 0) : u ∈ C := by
  obtain ⟨margin, -, -, hmargin⟩ := h.exists_margin g
  obtain ⟨t, hsimple, hsides⟩ := (h.simple.and hmargin).exists
  have hmoved {v : ι} (hv : v ∈ nodes) :
      (g + margin t • A.level) (place v t) = g (place v t) + margin t := by
    have hlevel : A.level (place v t) = 1 := hsimple.level_eq hv
    simp [hlevel]
  have hneg {v : ι} (hv : v ∈ nodes) :
      (g + margin t • A.level) (place v t) < 0 ↔ g (pos v) < 0 := by
    rw [hmoved hv]
    refine ⟨fun hlt => ?_, (hsides v hv).1⟩
    by_contra hge
    exact lt_asymm hlt ((hsides v hv).2 (not_lt.1 hge))
  have hleveldown : A.level A.down = 0 := hsimple.upright.level_down
  refine hsimple.mem_of_closed (g := g + margin t • A.level) (by simpa [hleveldown] using hdown)
    (fun hv => ⟨(hC hv).1, (hneg (hC hv).1).2 (hC hv).2⟩) hne
    (fun hv hu hgu => hclosed hv hu ((hneg hu).1 hgu)) hu ((hneg hu).2 hgu)

/-- The new nodes converge along with the old ones. -/
theorem point_tendsto (h : A.IsResolution p size nodes F pos shift place)
    (hup : B.IsUpright (size + 1)) {margin : ℚ → ℚ}
    (hmargin : Tendsto margin (𝓝[>] 0) (𝓝 0)) {a : Origin ι}
    (ha : a.IsValid B p size nodes {v | B.side size (pos v) < 0} F) (g : W →ₗ[ℚ] ℚ) :
    Tendsto (fun t => g (a.point (B.shifted (Function.update (shift · t) size (margin t))) size
      (place · t))) (𝓝[>] 0) (𝓝 (g (a.point B size pos))) := by
  have hside {v : ι} (hv : v ∈ nodes) :
      Tendsto (fun t => B.side size (place v t) + margin t * B.level (place v t)) (𝓝[>] 0)
        (𝓝 (B.side size (pos v))) := by
    have hlim := (h.place_tendsto hv (B.side size)).add
      (hmargin.mul (h.place_tendsto hv B.level))
    simpa only [zero_mul, add_zero] using hlim
  cases a with
  | kept v => exact h.place_tendsto ha.1 g
  | split o s =>
    have hne : B.side size (pos o) - B.side size (pos s) ≠ 0 :=
      (sub_neg.2 (lt_of_lt_of_le ha.1.2 (not_lt.1 ha.2.1.2))).ne
    have ho := h.place_tendsto ha.1.1 g
    have hs := h.place_tendsto ha.2.1.1 g
    simp only [Origin.point, map_add, map_smul, map_sub, smul_eq_mul, side_shifted,
      Function.update_self]
    exact ho.add (((hside ha.1.1).div ((hside ha.1.1).sub (hside ha.2.1.1)) hne).mul (hs.sub ho))
  | lowered v =>
    have hpos : 0 < B.side size B.down :=
      hup.side_down_pos (Nat.lt_succ_self _) (by simp [ha.2.1])
    simp only [Origin.point, map_smul, map_sub, smul_eq_mul, side_shifted, Function.update_self,
      down_shifted, hup.level_down, mul_zero, add_zero]
    exact (h.place_tendsto ha.1.1 g).sub (((hside ha.1.1).div_const _).mul_const _)

theorem exists_isCut (h : A.IsResolution p size nodes F pos shift place)
    (hup : B.IsUpright (size + 1)) (hAB : A.AgreesBelow B size) :
    ∃ margin : ℚ → ℚ, (∀ t, 0 ≤ margin t) ∧ Tendsto margin (𝓝[>] 0) (𝓝 0) ∧
      ∀ᶠ t in 𝓝[>] 0, (B.shifted (Function.update (shift · t) size (margin t))).IsCut p size nodes
        {v | B.side size (pos v) < 0} F (place · t) := by
  obtain ⟨margin, hnonneg, hlim, hsides⟩ := h.exists_margin (B.side size)
  refine ⟨margin, hnonneg, hlim, ?_⟩
  filter_upwards [h.simple, hsides] with t hsimple ht
  have hagree : (A.shifted (shift · t)).AgreesBelow
      (B.shifted (Function.update (shift · t) size (margin t))) size := by
    apply hAB.shifted
    intro j hj
    rw [Function.update_of_ne hj.ne]
  have hmoved {v : ι} (hv : v ∈ nodes) :
      (B.shifted (Function.update (shift · t) size (margin t))).side size (place v t) =
        B.side size (place v t) + margin t := by
    have hlevel : B.level (place v t) = 1 := hAB.level_eq ▸ hsimple.level_eq hv
    rw [side_shifted, Function.update_self, hlevel, mul_one]
  exact ⟨hsimple.congr hagree, hup.shifted _, fun hv hlt => hmoved hv ▸ (ht _ hv).1 hlt,
    fun hv hge => hmoved hv ▸ (ht _ hv).2 (not_lt.1 hge)⟩

/-- A cut of the limit is the limit of cuts. -/
theorem cut (h : A.IsResolution p size nodes F pos shift place) (hup : B.IsUpright (size + 1))
    (hAB : A.AgreesBelow B size) : ∃ shift' place', B.IsResolution p (size + 1)
      {a : Origin ι | a.IsValid B p size nodes {v | B.side size (pos v) < 0} F}
      (Origin.facets B size F) (Origin.point B size pos) shift' place' := by
  obtain ⟨margin, hnonneg, hlim, hcut⟩ := h.exists_isCut hup hAB
  have hshift (t : ℚ) : (fun j => Function.update shift size margin j t) =
      Function.update (shift · t) size (margin t) := by
    ext j
    by_cases hj : j = size
    · subst hj
      simp
    · simp [hj]
  refine ⟨Function.update shift size margin,
    fun a t => a.point (B.shifted (Function.update (shift · t) size (margin t))) size (place · t),
    ?_, ?_, fun ha g => h.point_tendsto hup hlim ha g, ?_⟩
  · intro j t
    by_cases hj : j = size
    · subst hj
      simpa using hnonneg t
    · simpa [hj] using h.shift_nonneg j t
  · intro j
    by_cases hj : j = size
    · subst hj
      simpa using hlim
    · simpa [hj] using h.shift_tendsto j
  · filter_upwards [hcut] with t ht
    rw [hshift]
    exact ht.isSimple

/-- In the limit too, a new node is adjacent to no old one but the end of its edge. -/
theorem eq_split_of_adjacent (h : A.IsResolution p size nodes F pos shift place)
    (hup : B.IsUpright (size + 1)) (hAB : A.AgreesBelow B size) {a : Origin ι}
    (ha : a.IsValid B p size nodes {v | B.side size (pos v) < 0} F) (hfresh : a.IsFresh)
    (hv : v ∈ nodes) (hge : ¬ B.side size (pos v) < 0)
    (hadj : (F v ∩ a.facets B size F).card + 1 = p) : ∃ o, a = .split o v := by
  obtain ⟨margin, -, -, hcut⟩ := h.exists_isCut hup hAB
  obtain ⟨t, ht⟩ := hcut.exists
  exact ht.eq_split_of_adjacent ⟨hv, hge⟩ ha hfresh hadj

end IsResolution

end Arrangement

end WeightPolyhedron
