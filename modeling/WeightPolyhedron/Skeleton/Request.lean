import WeightPolyhedron.Skeleton
/-!
What can be asked of a skeleton, as data, so that whole histories can be run: a request is performed
with a response or a failure, and either way there is a skeleton after it.
-/

namespace WeightPolyhedron

inductive Request (α : Type) where
  | nextWeight
  | point (outcome : List α)
  | pointAnywhere (outcome : List α)
  | ray (direction : List α)
  | rayAnywhere (direction : List α)
  | rays (directions : List (List α))
deriving Repr, DecidableEq

inductive Response (α : Type) where
  /-- The weight handed out. -/
  | weight (weight : List α)
  /-- Whether the report cut something off. -/
  | accepted (cutSome : Bool)
  /-- The report was taken. -/
  | taken
  /-- How many reports of a batch cut something off. -/
  | applied (count : Nat)
deriving Repr, DecidableEq

namespace Request

variable {α : Type} [Scalar α]

def perform : Request α → Skeleton.Action α (Response α)
  | nextWeight => .weight <$> Skeleton.nextWeight
  | point outcome => .accepted <$> Skeleton.reportPoint outcome
  | pointAnywhere outcome => .accepted <$> Skeleton.reportPointAnywhere outcome
  | ray direction => (fun () => .taken) <$> Skeleton.reportRay direction
  | rayAnywhere direction => .accepted <$> Skeleton.reportRayAnywhere direction
  | rays directions => .applied <$> Skeleton.reportRays directions

end Request

namespace Skeleton

variable {α : Type} [Scalar α]

def respond (s : Skeleton α) (request : Request α) :
    Except (Error α) (Response α) × Skeleton α :=
  match request.perform s with
  | .ok response s => (.ok response, s)
  | .error e s => (.error e, s)

def after (s : Skeleton α) (requests : List (Request α)) : Skeleton α :=
  requests.foldl (fun s request => (s.respond request).2) s

end Skeleton

end WeightPolyhedron
