/-!
JSON documents as far as they are needed here: numbers that are counts, numbers that are doubles,
truth values, words, lists and records with named fields. How a document looks as a text, and how a
text is taken apart, is up to the library that is used for it.
-/

namespace WeightPolyhedron.Json

inductive Value where
  | bool (b : Bool)
  | natural (n : Nat)
  | real (x : Float)
  | word (w : String)
  | list (items : List Value)
  | record (fields : List (String × Value))

/-- Why a text could not be read: it is not JSON, it is JSON of another shape, or it ends too
early. -/
inductive Fault where
  | malformed
  | mismatched
  | unfinished
deriving Repr, DecidableEq

/-- Takes a value off the front of a text. -/
abbrev Reader (β : Type) := StateT (List Char) (Except Fault) β

/-- The fields of a record, each with its name and the reader of its value. -/
inductive Fields : Type → Type 1
  | nil : Fields Unit
  | cons {β γ : Type} (name : String) (reader : Reader β) (rest : Fields γ) : Fields (β × γ)

def Fields.names {γ : Type} : Fields γ → List String
  | .nil => []
  | .cons name _ rest => name :: rest.names

/-- What a library for JSON offers. -/
class Format where
  chars : Value → List Char
  bool : Reader Bool
  /-- A number of at most 64 bits without sign, point and exponent. -/
  natural : Reader Nat
  real : Reader Float
  /-- A choice among words without further data. -/
  choice {β : Type} (words : List (String × β)) : Reader β
  list {β : Type} (item : Reader β) : Reader (List β)
  record {γ : Type} (fields : Fields γ) : Reader γ
  /-- Reads a text that holds one document and nothing else. -/
  run {β : Type} (reader : Reader β) (text : String) : Except Fault β

def Value.text [Format] (v : Value) : String := String.ofList (Format.chars v)

def Reader.run {β : Type} [Format] (reader : Reader β) (text : String) : Except Fault β :=
  Format.run reader text

end WeightPolyhedron.Json
