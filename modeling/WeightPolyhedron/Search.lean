import WeightPolyhedron.Skeleton
/-!
The search for all extreme supported points. An oracle minimises the weighted sum of the objectives
for one weight at a time; its answers are reported to a skeleton, which names the next weight, until
no untested weight is left or the budget is spent.
-/

namespace WeightPolyhedron

inductive Answer (α : Type) where
  /-- An outcome vector of least weighted sum. -/
  | point (outcome : List α)
  /-- A direction along which the weighted sum falls without bound. -/
  | ray (direction : List α)
deriving Repr, DecidableEq

abbrev Oracle (σ ε α : Type) := List α → EStateM ε σ (Answer α)

inductive Search.Error (ε α : Type) where
  | oracle (cause : ε)
  | skeleton (cause : Skeleton.Error α)
  | noBoundedPoint (objectives : Nat)
deriving Repr, DecidableEq

/-- The record of a search: the points that became facets and all rays answered, in order of
discovery, the statistics of each report, the number of calls of the oracle, and the skeleton. -/
structure Search (α : Type) where
  points : List (List α)
  rays : List (List α)
  history : List CutStats
  calls : Nat
  skeleton : Skeleton α
deriving Repr

namespace Search

variable {σ ε α : Type}

def isComplete (search : Search α) : Bool := !search.skeleton.hasNextWeight

def ask (oracle : Oracle σ ε α) (weight : List α) : EStateM (Error ε α) σ (Answer α) := fun state =>
  match oracle weight state with
  | .ok answer state => .ok answer state
  | .error cause state => .error (.oracle cause) state

def act {β : Type} (s : Skeleton α) (action : Skeleton.Action α β) :
    EStateM (Error ε α) σ (β × Skeleton α) :=
  match action s with
  | .ok b s => pure (b, s)
  | .error cause _ => throw (.skeleton cause)

variable [Scalar α]

/-- Asks for the unit weights from an index on until a point is answered. Gives the rays answered
before, and the index and the point, if there is one. -/
def probe (oracle : Oracle σ ε α) (objectives : Nat) (rays : List (List α)) :
    List Nat → EStateM (Error ε α) σ (List (List α) × Option (Nat × List α))
  | [] => pure (rays, none)
  | index :: rest => do
    match ← ask oracle (Facet.unitVector objectives index) with
    | .point outcome => pure (rays, some (index, outcome))
    | .ray direction => probe oracle objectives (rays ++ [direction]) rest

def step (oracle : Oracle σ ε α) (search : Search α) : EStateM (Error ε α) σ (Search α) := do
  let (weight, s) ← act search.skeleton Skeleton.nextWeight
  match ← ask oracle weight with
  | .point outcome =>
    let (improves, s) ← act s (Skeleton.reportPoint outcome)
    pure { search with
      points := if improves then search.points ++ [outcome] else search.points
      history := search.history ++ [s.stats]
      calls := search.calls + 1
      skeleton := s }
  | .ray direction =>
    let ((), s) ← act s (Skeleton.reportRay direction)
    pure { search with
      rays := search.rays ++ [direction]
      history := search.history ++ [s.stats]
      calls := search.calls + 1
      skeleton := s }

def explore (oracle : Oracle σ ε α) : Nat → Search α → EStateM (Error ε α) σ (Search α)
  | 0, search => pure search
  | budget + 1, search =>
    if search.skeleton.hasNextWeight then do
      explore oracle budget (← step oracle search)
    else
      pure search

/-- Searches from scratch: the unit weights give a first point, the rays met before it are known
from the start, and then at most `budget` weights are tested. -/
def run (oracle : Oracle σ ε α) (objectives : Nat) (settings : Settings α) (budget : Nat) :
    EStateM (Error ε α) σ (Search α) := do
  if objectives = 0 then
    throw (.skeleton .noObjectives)
  match ← probe oracle objectives [] (List.range objectives) with
  | (_, none) => throw (.noBoundedPoint objectives)
  | (rays, some (index, point)) =>
    match Skeleton.build objectives point (some index) rays settings with
    | .error cause => throw (.skeleton cause)
    | .ok skeleton =>
      explore oracle budget {
        points := [point], rays, history := [], calls := rays.length + 1, skeleton }

end Search

end WeightPolyhedron
