import WeightPolyhedron.Decimal.Layout
import WeightPolyhedron.Json.Reader
/-!
The text of a document, written without blanks, and the library that writes and reads such texts.
-/

namespace WeightPolyhedron.Json

def quote (w : String) : List Char := '"' :: w.toList ++ ['"']

/-- A double. One that is not finite cannot be written and becomes `null`. -/
def realChars (x : Float) : List Char :=
  if x.isFinite then (Decimal.Layout.document.text x).toList else ['n', 'u', 'l', 'l']

mutual

def Value.chars : Value → List Char
  | .bool true => ['t', 'r', 'u', 'e']
  | .bool false => ['f', 'a', 'l', 's', 'e']
  | .natural n => (toString n).toList
  | .real x => realChars x
  | .word w => quote w
  | .list [] => ['[', ']']
  | .list (v :: vs) => '[' :: v.chars ++ moreItems vs ++ [']']
  | .record [] => ['\x7b', '\x7d']
  | .record ((name, v) :: rest) =>
    '\x7b' :: quote name ++ ':' :: v.chars ++ moreFields rest ++ ['\x7d']

def moreItems : List Value → List Char
  | [] => []
  | v :: vs => ',' :: v.chars ++ moreItems vs

def moreFields : List (String × Value) → List Char
  | [] => []
  | (name, v) :: rest => ',' :: quote name ++ ':' :: v.chars ++ moreFields rest

end

instance compact : Format where
  chars := Value.chars
  bool := bool
  natural := natural
  real := real
  choice := choice
  list := list
  record := record
  run := readAll

end WeightPolyhedron.Json
