import WeightPolyhedron.Search
import WeightPolyhedron.Decimal.Layout
/-!
The texts of the library over doubles: facets and vertices written out, and one message for each
cause of a failure. Numbers in running text have no exponent; vectors are written with pointed
numbers. A failure that can only be told by naming nodes has no message.
-/

namespace WeightPolyhedron

open Decimal (Layout)

def Facet.text (f : Facet Float) : String := f.kind.name ++ Layout.pointed.listText f.coefficients

def Vertex.text (v : Vertex Float) : String :=
  "weight " ++ Layout.pointed.listText v.weight ++ ", value " ++ Layout.plain.text v.value
    ++ ", facets [" ++ ", ".intercalate (v.facets.map FacetId.text) ++ "]"

def Tolerance.text : Tolerance Float → String
  | .strict => "strict"
  | .margin epsilon => "tolerant(eps = " ++ Layout.scientific.text epsilon ++ ")"

def lengthMessage (expected actual : Nat) : String :=
  s!"Expected {expected} objective values, got {actual}"

def Settings.Error.message (e : Settings.Error Float) : String :=
  "epsilon must be finite and non-negative, got " ++ Layout.plain.text e.epsilon

def Facet.Error.message : Facet.Error Float → String
  | .wrongLength expected actual => lengthMessage expected actual
  | .notFinite index value =>
    "Non-finite coefficient " ++ Layout.plain.text value ++ s!" at index {index}"
  | .empty => "A facet needs at least one objective"

def Vertex.Error.message : Vertex.Error Float → String
  | .notSeparated violated surviving =>
    "Facet does not separate edge endpoints: obsolete side " ++ Layout.plain.text violated
      ++ ", surviving side " ++ Layout.plain.text surviving
  | .notMovable weight =>
    "Vertex at weight " ++ Layout.pointed.listText weight ++ " has no vertical edge"
  | .noDescent facet =>
    "Facet " ++ facet.text ++ " has no objective coefficient; it cannot move a corner"

def Cut.Error.message? : Cut.Error Float → Option String
  | .mesh _ => none
  | .vertex cause => some ("Vertex construction failed: " ++ cause.message)

def Skeleton.Error.message? : Skeleton.Error Float → Option String
  | .noObjectives => some "A weight space skeleton needs at least one objective"
  | .wrongLength expected actual => some (lengthMessage expected actual)
  | .cornerOutOfRange index objectives =>
    some s!"Originating corner {index} out of range for {objectives} objectives"
  | .facet cause => some ("Invalid facet input: " ++ cause.message)
  | .nothingUntested => some "No untested weight left"
  | .missingSeed _ => none
  | .cut cause => cause.message?.map ("Skeleton update failed: " ++ ·)

/-- The message of a failed search; the oracle words its own failures. -/
def Search.Error.message? : Search.Error String Float → Option String
  | .oracle cause => some ("Weighted-sum oracle failed: " ++ cause)
  | .skeleton cause => cause.message?.map ("Skeleton error: " ++ ·)
  | .noBoundedPoint objectives =>
    some s!"No unit weight among {objectives} yields a bounded point"

end WeightPolyhedron
