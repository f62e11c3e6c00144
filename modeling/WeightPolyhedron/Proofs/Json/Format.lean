import WeightPolyhedron.Json.Format
import Mathlib

/-!
What is expected of a library for JSON: it reads back what it writes, value by value. A list and a
record are read from the texts of their parts, so the laws say nothing of any particular document.
Whether doubles are read back is a law of its own.
-/

namespace WeightPolyhedron.Json

theorem bind_of_ok {β γ : Type} {x : Reader β} {cs rest : List Char} {b : β} (f : β → Reader γ)
    (h : x cs = .ok (b, rest)) : (x >>= f) cs = f b rest := by
  rw [show (x >>= f) cs = (x cs >>= fun p => f p.1 p.2) from rfl, h]
  rfl

/-- What may follow a value in a document: nothing, or the mark that ends it. -/
def Ends (rest : List Char) : Prop := ∀ c ∈ rest.head?, c = ',' ∨ c = ']' ∨ c = '\x7d'

theorem ends_nil : Ends [] := by simp [Ends]

theorem ends_cons {c : Char} {rest : List Char} (h : c = ',' ∨ c = ']' ∨ c = '\x7d') :
    Ends (c :: rest) := by simpa [Ends] using h

/-- Characters that stand for themselves: no quote, no backslash and no control character. -/
def isPlain (cs : List Char) : Bool := cs.all fun c => c != '"' && c != '\\' && !decide (c < ' ')

def AreNames (names : List String) : Prop := names.Nodup ∧ ∀ name ∈ names, isPlain name.toList

instance (names : List String) : Decidable (AreNames names) :=
  inferInstanceAs (Decidable (names.Nodup ∧ _))

namespace Format

variable [Format] {β γ : Type}

/-- The document is taken off the front of a text as the given value, whatever may follow it. -/
def Reads (reader : Reader β) (v : Value) (b : β) : Prop :=
  ∀ rest, Ends rest → reader (chars v ++ rest) = .ok (b, rest)

/-- The written fields are those that are expected, in order, and each value is read. -/
inductive ReadsFields : {γ : Type} → Fields γ → List (String × Value) → γ → Prop
  | nil : ReadsFields .nil [] ()
  | cons {β γ : Type} {name : String} {reader : Reader β} {rest : Fields γ} {v : Value}
      {written : List (String × Value)} {b : β} {c : γ} (hread : Reads reader v b)
      (hrest : ReadsFields rest written c) :
      ReadsFields (.cons name reader rest) ((name, v) :: written) (b, c)

/-- A value of each kind is read from its own text, a list and a record from the texts of their
parts, and a whole text as the one document in it. -/
structure Lawful : Prop where
  bool (b : Bool) : Reads Format.bool (.bool b) b
  natural {n : ℕ} (hn : n < 2 ^ 64) : Reads Format.natural (.natural n) n
  choice {β : Type} {words : List (String × β)} {w : String} {b : β} (hplain : isPlain w.toList)
    (hfind : (words.find? fun p => p.1 = w) = some (w, b)) : Reads (Format.choice words) (.word w) b
  list {β : Type} {item : Reader β} {docs : List Value} {items : List β}
    (hitems : List.Forall₂ (Reads item) docs items) : Reads (Format.list item) (.list docs) items
  record {γ : Type} {fields : Fields γ} {written : List (String × Value)} {c : γ}
    (hfields : ReadsFields fields written c) (hnames : AreNames fields.names) :
    Reads (Format.record fields) (.record written) c
  run {β : Type} {reader : Reader β} {v : Value} {b : β} (hread : Reads reader v b) :
    reader.run v.text = .ok b

/-- The text that is written for a finite double is read as the same double. -/
def ReadsDoublesBack : Prop := ∀ x : Float, x.isFinite → Reads Format.real (.real x) x

theorem Reads.map {reader : Reader β} {v : Value} {b : β} (h : Reads reader v b) (f : β → γ) :
    Reads (f <$> reader) v (f b) := by
  intro rest hrest
  rw [map_eq_pure_bind, bind_of_ok _ (h rest hrest)]
  rfl

end Format

end WeightPolyhedron.Json
