import WeightPolyhedron.Mesh.Cut
import WeightPolyhedron.Mesh.Audit
/-!
The skeleton of a weight polyhedron over a growing list of facets. Each vertex carries a weight
worth testing; the skeleton hands out the untested weights one at a time, and each point or ray
reported back cuts off the vertices that it violates.
-/

namespace WeightPolyhedron

/-- The facets, the mesh of vertices that they define, the settings, what the last report did, and
how many audits have failed so far. -/
structure Skeleton (α : Type) where
  objectives : Nat
  log : FacetLog α
  mesh : Mesh α
  settings : Settings α
  stats : CutStats
  failedAudits : Nat
deriving Repr

inductive Skeleton.Error (α : Type) where
  | noObjectives
  | wrongLength (expected actual : Nat)
  | cornerOutOfRange (index objectives : Nat)
  | facet (cause : Facet.Error α)
  | nothingUntested
  | missingSeed (node : NodeKey)
  | cut (cause : Cut.Error α)
deriving Repr, DecidableEq

namespace Skeleton

variable {α : Type}

def Error.ofCut : Cut.Error α → Error α
  | .mesh (.missingSeed n) => .missingSeed n
  | cause => .cut cause

/-- A change of a skeleton that may fail; after a failure the skeleton is as the failure found
it. -/
abbrev Action (α β : Type) := EStateM (Error α) (Skeleton α) β

def checkLength (expected : Nat) (values : List α) : Except (Error α) Unit :=
  if values.length = expected then .ok () else .error (.wrongLength expected values.length)

def audited (s : Skeleton α) : Skeleton α :=
  if s.settings.checkInvariants then
    match s.mesh.auditStructure s.objectives with
    | .ok () => s
    | .error _ => { s with failedAudits := s.failedAudits + 1 }
  else
    s

def addCorner (m : Mesh α) (earlier : List NodeKey) (v : Vertex α) (untested : Bool) :
    NodeKey × Mesh α :=
  let (n, m) := m.attach v untested
  (n, earlier.foldl (·.join · n) m)

/-- The corners of the simplex under the facet of a point, all joined to each other. The corner
whose weight gave the point needs no test. -/
def cornerMesh [Scalar α] (point : List α) (id : FacetId) (originating : Option Nat) : Mesh α :=
  let corners := point.zipIdx.filterMap fun (value, i) =>
    (Vertex.corner? i point.length value id).map fun v => (v, decide (originating ≠ some i))
  (corners.foldl (fun (m, earlier) (v, untested) =>
    let (n, m) := addCorner m earlier v untested
    (m, earlier ++ [n])) (Mesh.empty, [])).1

def start [Scalar α] (objectives : Nat) (point : List α) (originating : Option Nat)
    (settings : Settings α) : Except (Error α) (Skeleton α) := do
  if objectives = 0 then
    throw .noObjectives
  checkLength objectives point
  match originating.filter (objectives ≤ ·) with
  | some index => throw (.cornerOutOfRange index objectives)
  | none => pure ()
  match (FacetLog.ofSimplex objectives).pushPoint point with
  | .error cause => throw (.facet cause)
  | .ok (id, log) =>
    pure {
      objectives, log, settings
      mesh := cornerMesh point id originating
      stats := .zero
      failedAudits := 0 : Skeleton α }.audited

def hasNextWeight (s : Skeleton α) : Bool := !s.mesh.graph.untested.isEmpty

def vertexAt (n : NodeKey) : Action α (Vertex α) := fun s =>
  match s.mesh.vertexAt n with
  | .ok v => .ok v s
  | .error e => .error (.ofCut (.mesh e)) s

def nextWeight : Action α (List α) := do
  let taken ← modifyGet fun s =>
    let (n?, graph) := s.mesh.graph.takeUntested
    (n?, { s with mesh := { s.mesh with graph } })
  match taken with
  | none => throw .nothingUntested
  | some n => return (← vertexAt n).weight

section Reports

variable [Scalar α]

def facetOf (make : List α → Except (Facet.Error α) (Facet α)) (values : List α) :
    Action α (Facet α) := fun s =>
  match checkLength s.objectives values with
  | .error e => .error e s
  | .ok () =>
    match make values with
    | .error cause => .error (.facet cause) s
    | .ok f => .ok f s

/-- Stores a facet and cuts the mesh with it from a violated node on. -/
def cut (f : Facet α) (seed : NodeKey) : Action α Unit := fun s =>
  match s.log.push f with
  | .error cause => .error (.facet cause) s
  | .ok (id, log) =>
    match Mesh.cut log id f seed s.settings.retention s.mesh with
    | .ok stats mesh => .ok () ({ s with log, mesh, stats } : Skeleton α).audited
    | .error cause mesh => .error (.ofCut cause) { s with log, mesh }

def reject : Action α Unit := modify fun s => { s with stats := .rejected }

def cutAnywhere (f : Facet α) (tolerance : Tolerance α) : Action α Bool := do
  match (← get).mesh.findViolated f tolerance with
  | some seed =>
    cut f seed
    return true
  | none =>
    reject
    return false

def tolerance (s : Skeleton α) : Tolerance α := .margin s.settings.epsilon

/-- Takes a point found for the weight handed out last, and tells whether it improves the value
there. If no weight is out, all vertices are tried. -/
def reportPoint (point : List α) : Action α Bool := do
  let f ← facetOf Facet.ofPoint point
  let tolerance := (← get).tolerance
  match (← get).mesh.graph.lastTaken with
  | none => cutAnywhere f tolerance
  | some seed =>
    if f.violates (← vertexAt seed) tolerance then
      cut f seed
      return true
    else
      reject
      return false

def reportPointAnywhere (point : List α) : Action α Bool := do
  let f ← facetOf Facet.ofPoint point
  cutAnywhere f (← get).tolerance

/-- Takes an unbounded direction: tried first at the weight handed out last, then at all
vertices. -/
def reportRay (ray : List α) : Action α Unit := do
  let f ← facetOf Facet.ofRay ray
  match (← get).mesh.graph.lastTaken with
  | none => discard (cutAnywhere f .strict)
  | some seed =>
    if f.violates (← vertexAt seed) .strict then
      cut f seed
    else
      discard (cutAnywhere f .strict)

def reportRayAnywhere (ray : List α) : Action α Bool := do
  let f ← facetOf Facet.ofRay ray
  cutAnywhere f .strict

/-- Takes directions one after the other, and adds up what they did. -/
def reportRaysFrom (total : CutStats) (applied : Nat) : List (List α) → Action α Nat
  | [] => do
    modify fun s => { s with stats := total }
    return applied
  | ray :: rest => do
    let cutSome ← reportRayAnywhere ray
    reportRaysFrom (total + (← get).stats) (if cutSome then applied + 1 else applied) rest

/-- Takes a batch of directions and tells how many cut something off. If one fails, the earlier ones
stay, and the statistics are those of the last one taken. -/
def reportRays (rays : List (List α)) : Action α Nat := reportRaysFrom .zero 0 rays

def build (objectives : Nat) (point : List α) (originating : Option Nat) (rays : List (List α))
    (settings : Settings α) : Except (Error α) (Skeleton α) := do
  let s ← start objectives point originating settings
  match reportRays rays s with
  | .ok _ s => pure s
  | .error e _ => throw e

def findViolated (s : Skeleton α) (f : Facet α) : Except (Error α) (Option NodeKey) := do
  checkLength s.objectives f.weightCoefficients
  pure (s.mesh.findViolated f s.tolerance)

end Reports

def untestedWeights (s : Skeleton α) : List (List α) :=
  s.mesh.graph.untested.filterMap fun n => (s.mesh.vertex? n).map (·.weight)

def validate (s : Skeleton α) : Except Mesh.Violation Unit := s.mesh.audit s.objectives

end Skeleton

end WeightPolyhedron
