import WeightPolyhedron.Json.Codec
import WeightPolyhedron.Proofs.Json.Text

/-!
What is written is read back, with any library that keeps the laws and reads back the doubles that
it writes. Facets, logs, statistics and settings are read from their own documents as they were, bit
for bit, as long as their doubles are finite.
-/

namespace WeightPolyhedron

open Json Json.Format

def Facet.IsFinite (f : Facet Float) : Prop := ∀ c ∈ f.coefficients, c.isFinite

instance (f : Facet Float) : Decidable f.IsFinite :=
  inferInstanceAs (Decidable (∀ c ∈ f.coefficients, _))

/-- The ids of facets that are pushed one after another; one that does not fit is passed over. -/
def FacetLog.assigned {α : Type} (log : FacetLog α) : List (Facet α) → List FacetId
  | [] => []
  | f :: rest =>
    match log.push f with
    | .ok (id, log) => id :: log.assigned rest
    | .error _ => log.assigned rest

section Reading

variable [Format] (hlawful : Lawful)

include hlawful

theorem Facet.Kind.reads (kind : Facet.Kind) : Reads Facet.Kind.reader kind.toJson kind := by
  cases kind <;> exact hlawful.choice (by decide) (by decide)

theorem Retention.reads (retention : Retention) :
    Reads Retention.reader retention.toJson retention := by
  cases retention <;> exact hlawful.choice (by decide) (by decide)

theorem CutStats.reads (stats : CutStats) : Reads CutStats.reader stats.toJson stats := by
  have hfields : ReadsFields CutStats.fields
      [("new_vertices", .natural stats.opened.toNat),
        ("processed_vertices", .natural stats.processed.toNat)]
      (stats.opened.toNat, stats.processed.toNat, ()) :=
    .cons (hlawful.natural stats.opened.toNat_lt)
      (.cons (hlawful.natural stats.processed.toNat_lt) .nil)
  have hnames : AreNames ["new_vertices", "processed_vertices"] := by decide
  have hread : Reads CutStats.reader stats.toJson
      ⟨.ofNat stats.opened.toNat, .ofNat stats.processed.toNat⟩ :=
    (hlawful.record hfields hnames).map _
  rwa [UInt64.ofNat_toNat, UInt64.ofNat_toNat] at hread

variable (hdoubles : ReadsDoublesBack)

include hdoubles

theorem Facet.reads {f : Facet Float} (h : f.IsFinite) : Reads Facet.reader f.toJson f := by
  have hcoefficients :
      Reads (Format.list Format.real) (.list (f.coefficients.map .real)) f.coefficients := by
    refine hlawful.list (List.forall₂_map_left_iff.2 (List.forall₂_same.2 fun c hc => ?_))
    exact hdoubles c (h c hc)
  have hfields : ReadsFields Facet.fields
      [("coefficients", .list (f.coefficients.map .real)), ("kind", f.kind.toJson)]
      (f.coefficients, f.kind, ()) :=
    .cons hcoefficients (.cons (f.kind.reads hlawful) .nil)
  have hnames : AreNames ["coefficients", "kind"] := by decide
  exact (hlawful.record hfields hnames).map _

theorem FacetLog.reads {log : FacetLog Float} (hobjectives : log.objectives < 2 ^ 64)
    (hfacets : ∀ f ∈ log.facets, f.IsFinite) : Reads FacetLog.reader log.toJson log := by
  have hlist : Reads (Format.list Facet.reader) (.list (log.facets.toList.map Facet.toJson))
      log.facets.toList := by
    refine hlawful.list (List.forall₂_map_left_iff.2 (List.forall₂_same.2 fun f hf => ?_))
    exact Facet.reads hlawful hdoubles (hfacets f (Array.mem_toList_iff.1 hf))
  have hfields : ReadsFields FacetLog.fields
      [("objectives", .natural log.objectives),
        ("facets", .list (log.facets.toList.map Facet.toJson))]
      (log.objectives, log.facets.toList, ()) :=
    .cons (hlawful.natural hobjectives) (.cons hlist .nil)
  have hnames : AreNames ["objectives", "facets"] := by decide
  exact (hlawful.record hfields hnames).map _

theorem Settings.reads {settings : Settings Float} (h : settings.epsilon.isFinite) :
    Reads Settings.reader settings.toJson settings := by
  have hfields : ReadsFields Settings.fields
      [("epsilon", .real settings.epsilon), ("check_invariants", .bool settings.checkInvariants),
        ("retention", settings.retention.toJson)]
      (settings.epsilon, settings.checkInvariants, settings.retention, ()) :=
    .cons (hdoubles _ h) (.cons (hlawful.bool _) (.cons (settings.retention.reads hlawful) .nil))
  have hnames : AreNames ["epsilon", "check_invariants", "retention"] := by decide
  exact (hlawful.record hfields hnames).map _

end Reading

def Json.edgeLog : FacetLog Float :=
  ⟨2, #[⟨[1, -0.0, 0], .boundary⟩, ⟨[0.1, 0.00001, -2.5], .point⟩, ⟨[], .ray⟩]⟩

end WeightPolyhedron
