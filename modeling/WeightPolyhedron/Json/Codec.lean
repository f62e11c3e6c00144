import WeightPolyhedron.Json.Text
import WeightPolyhedron.Mesh.Cut
/-!
The JSON forms of facets, logs, statistics and settings: how each is written, and how it is read
back, by any library. Nothing is checked of what is read but its shape.
-/

namespace WeightPolyhedron

open Json

def Facet.Kind.words : List (String × Facet.Kind) :=
  [Facet.Kind.boundary, .point, .ray].map fun kind => (kind.name, kind)

def Facet.Kind.toJson (kind : Facet.Kind) : Value := .word kind.name

def Retention.words : List (String × Retention) :=
  [Retention.deferred, .immediate].map fun retention => (retention.name, retention)

def Retention.toJson (retention : Retention) : Value := .word retention.name

def FacetId.toJson (id : FacetId) : Value := .natural id

def Facet.toJson (f : Facet Float) : Value :=
  .record [("coefficients", .list (f.coefficients.map .real)), ("kind", f.kind.toJson)]

def FacetLog.toJson (log : FacetLog Float) : Value :=
  .record [
    ("objectives", .natural log.objectives),
    ("facets", .list (log.facets.toList.map Facet.toJson))]

def CutStats.toJson (stats : CutStats) : Value :=
  .record [
    ("new_vertices", .natural stats.opened.toNat),
    ("processed_vertices", .natural stats.processed.toNat)]

def Settings.toJson (settings : Settings Float) : Value :=
  .record [
    ("epsilon", .real settings.epsilon),
    ("check_invariants", .bool settings.checkInvariants),
    ("retention", settings.retention.toJson)]

section Reading

variable [Format]

def Facet.Kind.reader : Reader Facet.Kind := Format.choice words

def Retention.reader : Reader Retention := Format.choice words

def FacetId.reader : Reader FacetId := Format.natural

def Facet.fields : Fields (List Float × Facet.Kind × Unit) :=
  .cons "coefficients" (Format.list Format.real) (.cons "kind" Facet.Kind.reader .nil)

def Facet.reader : Reader (Facet Float) :=
  (fun (coefficients, kind, _) => ⟨coefficients, kind⟩) <$> Format.record Facet.fields

def FacetLog.fields : Fields (Nat × List (Facet Float) × Unit) :=
  .cons "objectives" Format.natural (.cons "facets" (Format.list Facet.reader) .nil)

/-- A log of facets of any lengths, whatever its number of objectives. -/
def FacetLog.reader : Reader (FacetLog Float) :=
  (fun (objectives, facets, _) => ⟨objectives, facets.toArray⟩) <$> Format.record FacetLog.fields

def CutStats.fields : Fields (Nat × Nat × Unit) :=
  .cons "new_vertices" Format.natural (.cons "processed_vertices" Format.natural .nil)

def CutStats.reader : Reader CutStats :=
  (fun (opened, processed, _) => ⟨.ofNat opened, .ofNat processed⟩) <$>
    Format.record CutStats.fields

def Settings.fields : Fields (Float × Bool × Retention × Unit) :=
  .cons "epsilon" Format.real
    (.cons "check_invariants" Format.bool (.cons "retention" Retention.reader .nil))

def Settings.reader : Reader (Settings Float) :=
  (fun (epsilon, checkInvariants, retention, _) => ⟨epsilon, checkInvariants, retention⟩) <$>
    Format.record Settings.fields

end Reading

end WeightPolyhedron
