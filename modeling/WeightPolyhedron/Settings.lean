import WeightPolyhedron.Scalar
/-!
Settings of a skeleton. The margin that a point must improve on is checked when settings are made
from optional parts, and nowhere else.
-/

namespace WeightPolyhedron

inductive Retention where
  /-- It stays stored, without a node. -/
  | deferred
  /-- It is removed with the node. -/
  | immediate
deriving Repr, DecidableEq

def Retention.name : Retention → String
  | .deferred => "Deferred"
  | .immediate => "Immediate"

/-- The margin of the tolerant test, whether the structure is audited after each cut, and what
becomes of removed vertices. -/
structure Settings (α : Type) where
  epsilon : α
  checkInvariants : Bool
  retention : Retention
deriving Repr, DecidableEq, BEq

def Settings.standard : Settings Float := ⟨1e-9, true, .deferred⟩

structure Settings.Error (α : Type) where
  epsilon : α
deriving Repr, DecidableEq

def Settings.override {α : Type} (base : Settings α) (epsilon? : Option α)
    (checkInvariants? : Option Bool) (retention? : Option Retention) : Settings α where
  epsilon := epsilon?.getD base.epsilon
  checkInvariants := checkInvariants?.getD base.checkInvariants
  retention := retention?.getD base.retention

/-- Settings with the given parts replaced. A given margin must be finite and not negative. -/
def Settings.make {α : Type} [Scalar α] (base : Settings α) (epsilon? : Option α)
    (checkInvariants? : Option Bool) (retention? : Option Retention) :
    Except (Error α) (Settings α) :=
  match epsilon?.filter fun epsilon => !(Scalar.isFinite epsilon && decide (0 ≤ epsilon)) with
  | some epsilon => .error ⟨epsilon⟩
  | none => .ok (base.override epsilon? checkInvariants? retention?)

end WeightPolyhedron
