import WeightPolyhedron.Json.Format
/-!
Reading JSON text. The text is read once from left to right, and the first fault decides.
-/

namespace WeightPolyhedron.Json

def isBlank (c : Char) : Bool := c = ' ' || c = '\n' || c = '\t' || c = '\r'

def skipBlanks : Reader Unit := modify (·.dropWhile isBlank)

/-- Drops blanks and looks at the next character, which stays. -/
def peek : Reader Char := do
  skipBlanks
  match ← get with
  | [] => throw .unfinished
  | c :: _ => pure c

def drop : Reader Unit := modify (·.drop 1)

def expect : List Char → Reader Unit
  | [] => pure ()
  | c :: cs => do
    match ← get with
    | [] => throw .unfinished
    | d :: rest =>
      if c = d then
        set rest
        expect cs
      else
        throw .malformed

def expectMark (c : Char) : Reader Unit := do
  if (← peek) = c then drop else throw .malformed

def digits : Reader (List Char) :=
  modifyGet fun cs => (cs.takeWhile Char.isDigit, cs.dropWhile Char.isDigit)

def valueOf (ds : List Char) : Nat := ds.foldl (fun n d => 10 * n + (d.toNat - 48)) 0

/-- A number as written: `± digits * 10 ^ exponent`, and whether it has neither point nor
exponent. -/
structure Number where
  negative : Bool
  digits : Nat
  exponent : Int
  whole : Bool
deriving Repr, DecidableEq

namespace Number

/-- The nearest double, which is more than is asked of a library. -/
def toDouble (x : Number) : Float :=
  let magnitude := Float.ofScientific x.digits (x.exponent < 0) x.exponent.natAbs
  if x.negative then -magnitude else magnitude

/-- The number as a 64-bit count; a sign makes it none, also on zero. -/
def toCount? (x : Number) : Option Nat :=
  if x.whole && !x.negative && x.digits ≤ 0xFFFFFFFFFFFFFFFF then some x.digits else none

end Number

/-- The digits before the point: a leading zero stands alone. -/
def wholePart : Reader (List Char) := do
  match ← digits with
  | [] => if (← get).isEmpty then throw .unfinished else throw .malformed
  | '0' :: _ :: _ => throw .malformed
  | ds => pure ds

def someDigits : Reader (List Char) := do
  match ← digits with
  | [] => if (← get).isEmpty then throw .unfinished else throw .malformed
  | ds => pure ds

def fraction : Reader (List Char) := do
  match ← get with
  | '.' :: rest => set rest; someDigits
  | _ => pure []

def exponent? : Reader (Option Int) := do
  match ← get with
  | c :: rest =>
    if c = 'e' || c = 'E' then
      match rest with
      | '-' :: rest => set rest; return some (-valueOf (← someDigits))
      | '+' :: rest => set rest; return some (valueOf (← someDigits))
      | _ => set rest; return some (valueOf (← someDigits))
    else
      return none
  | [] => return none

/-- A number. One beyond the range of doubles is refused. -/
def number : Reader Number := do
  let negative := (← get).head? = some '-'
  if negative then
    drop
  let before ← wholePart
  let behind ← fraction
  let exponent ← exponent?
  let x : Number := {
    negative
    digits := valueOf (before ++ behind)
    exponent := exponent.getD 0 - behind.length
    whole := behind.isEmpty && exponent.isNone }
  if x.toDouble.isFinite then pure x else throw .malformed

/-- Where a reader stands inside a string. -/
inductive StringState where
  /-- Among plain characters. -/
  | plain
  /-- After a backslash. -/
  | escape
  /-- Inside an escaped code unit, after so many digits; the code unit before it, if that was the
  first half of a pair. -/
  | code (count value : Nat) (half : Option Nat)
  /-- After the first half of a pair: the backslash of the second half must follow. -/
  | second (half : Nat)
  /-- After that backslash: the mark of a code unit must follow. -/
  | secondMark (half : Nat)
deriving Repr

def escaped? : Char → Option Char
  | '"' => some '"'
  | '\\' => some '\\'
  | '/' => some '/'
  | 'b' => some '\x08'
  | 'f' => some '\x0c'
  | 'n' => some '\n'
  | 'r' => some '\r'
  | 't' => some '\t'
  | _ => none

def hexValue? (c : Char) : Option Nat :=
  if c.isDigit then some (c.toNat - 48)
  else if 'a' ≤ c ∧ c ≤ 'f' then some (c.toNat - 87)
  else if 'A' ≤ c ∧ c ≤ 'F' then some (c.toNat - 55)
  else none

/-- A code unit that is not four digits long: if not even four bytes are left from its start, the
text ends too early. -/
def codeFault (count : Nat) (rest : List Char) : Fault :=
  if (rest.take 4).foldl (fun bytes c => bytes + c.utf8Size) count < 4 then .unfinished
  else .malformed

def isFirstHalf (n : Nat) : Bool := 0xD800 ≤ n && n ≤ 0xDBFF

def isSecondHalf (n : Nat) : Bool := 0xDC00 ≤ n && n ≤ 0xDFFF

def completeCode (half : Option Nat) (n : Nat) : Except Fault (Option Char × StringState) :=
  match half with
  | none =>
    if isSecondHalf n then .error .malformed
    else if isFirstHalf n then .ok (none, .second n)
    else .ok (some (Char.ofNat n), .plain)
  | some first =>
    if isSecondHalf n then
      .ok (some (Char.ofNat (0x10000 + (first - 0xD800) * 0x400 + (n - 0xDC00))), .plain)
    else
      .error .malformed

/-- The rest of a string behind its opening quote, with what was read in reverse. -/
def stringFrom : StringState → List Char → List Char → Except Fault (List Char × List Char)
  | _, _, [] => .error .unfinished
  | .plain, read, c :: rest =>
    if c = '"' then .ok (read.reverse, rest)
    else if c = '\\' then stringFrom .escape read rest
    else if c < ' ' then .error .malformed
    else stringFrom .plain (c :: read) rest
  | .escape, read, c :: rest =>
    if c = 'u' then
      stringFrom (.code 0 0 none) read rest
    else
      match escaped? c with
      | some d => stringFrom .plain (d :: read) rest
      | none => .error .malformed
  | .code count value half, read, c :: rest =>
    match hexValue? c with
    | none => .error (codeFault count (c :: rest))
    | some d =>
      let value := 16 * value + d
      if count < 3 then
        stringFrom (.code (count + 1) value half) read rest
      else
        match completeCode half value with
        | .error e => .error e
        | .ok (some d, state) => stringFrom state (d :: read) rest
        | .ok (none, state) => stringFrom state read rest
  | .second half, read, c :: rest =>
    if c = '\\' then stringFrom (.secondMark half) read rest else .error .malformed
  | .secondMark half, read, c :: rest =>
    if c = 'u' then stringFrom (.code 0 0 (some half)) read rest else .error .malformed

def stringBody : Reader (List Char) := fun cs => stringFrom .plain [] cs

/-- The rest of a string that is not needed: code units need not be paired. -/
def skipStringFrom : StringState → List Char → Except Fault (List Char)
  | _, [] => .error .unfinished
  | .escape, c :: rest =>
    if c = 'u' then skipStringFrom (.code 0 0 none) rest
    else if (escaped? c).isSome then skipStringFrom .plain rest
    else .error .malformed
  | .code count _ _, c :: rest =>
    if (hexValue? c).isNone then .error (codeFault count (c :: rest))
    else if count < 3 then skipStringFrom (.code (count + 1) 0 none) rest
    else skipStringFrom .plain rest
  | _, c :: rest =>
    if c = '"' then .ok rest
    else if c = '\\' then skipStringFrom .escape rest
    else if c < ' ' then .error .malformed
    else skipStringFrom .plain rest

def skipString : Reader Unit := fun cs => (skipStringFrom .plain cs).map fun rest => ((), rest)

def skipDigits : Reader Unit := do
  if (← digits).isEmpty then throw .malformed

/-- Passes over a number behind its sign. It need not fit a double, and one cut short by the end of
the text is no number. -/
def skipNumber : Reader Unit := do
  match ← digits with
  | [] => throw .malformed
  | '0' :: _ :: _ => throw .malformed
  | _ => pure ()
  match ← get with
  | '.' :: rest => set rest; skipDigits
  | _ => pure ()
  match ← get with
  | c :: rest =>
    if c = 'e' || c = 'E' then
      match rest with
      | '-' :: rest => set rest; skipDigits
      | '+' :: rest => set rest; skipDigits
      | _ => set rest; skipDigits
  | [] => pure ()

def skipName : Reader Unit := do
  expectMark '"'
  skipString
  expectMark ':'

/-- What may follow a complete value inside the open lists (`true` for a record): ends of lists and
records, and then a comma. Gives what is still open, empty if nothing is. -/
def skipEnds : Nat → List Bool → Reader (List Bool)
  | _, [] => pure []
  | 0, _ => throw .unfinished
  | bound + 1, inRecord :: outer => do
    let c ← peek
    if c = (if inRecord then '\x7d' else ']') then
      drop
      skipEnds bound outer
    else if c = ',' then
      drop
      if inRecord then
        skipName
      pure (inRecord :: outer)
    else
      throw .malformed

def skipValueIn : Nat → List Bool → Reader Unit
  | 0, _ => throw .unfinished
  | bound + 1, enclosing => do
    let c ← peek
    let goOn (enclosing : List Bool) : Reader Unit := do
      match ← skipEnds (bound + 1) enclosing with
      | [] => pure ()
      | enclosing => skipValueIn bound enclosing
    let enter (inRecord : Bool) (close : Char) : Reader Unit := do
      drop
      if (← peek) = close then
        drop
        goOn enclosing
      else
        if inRecord then
          skipName
        skipValueIn bound (inRecord :: enclosing)
    if c = 'n' then
      expect ['n', 'u', 'l', 'l']
      goOn enclosing
    else if c = 't' then
      expect ['t', 'r', 'u', 'e']
      goOn enclosing
    else if c = 'f' then
      expect ['f', 'a', 'l', 's', 'e']
      goOn enclosing
    else if c = '"' then
      drop
      skipString
      goOn enclosing
    else if c = '-' then
      drop
      skipNumber
      goOn enclosing
    else if c.isDigit then
      skipNumber
      goOn enclosing
    else if c = '[' then
      enter false ']'
    else if c = '\x7b' then
      enter true '\x7d'
    else
      throw .malformed

/-- Passes over one value. Each step takes a character, so the length of the text bounds them. -/
def skipValue : Reader Unit := do
  skipValueIn ((← get).length + 1) []

/-- Fails on a value of another shape than expected. A word, number or string is read first, and a
fault in it comes before the mismatch. -/
def mismatch {β : Type} : Reader β := do
  match ← get with
  | 'n' :: _ => expect ['n', 'u', 'l', 'l']
  | 't' :: _ => expect ['t', 'r', 'u', 'e']
  | 'f' :: _ => expect ['f', 'a', 'l', 's', 'e']
  | '"' :: rest => set rest; discard stringBody
  | '[' :: _ => pure ()
  | '\x7b' :: _ => pure ()
  | c :: _ => if c = '-' || c.isDigit then discard number else throw .malformed
  | [] => throw .unfinished
  throw .mismatched

def bool : Reader Bool := do
  match ← peek with
  | 't' => expect ['t', 'r', 'u', 'e']; pure true
  | 'f' => expect ['f', 'a', 'l', 's', 'e']; pure false
  | _ => mismatch

def anyNumber : Reader Number := do
  let c ← peek
  if c = '-' || c.isDigit then number else mismatch

def natural : Reader Nat := do
  match (← anyNumber).toCount? with
  | some n => pure n
  | none => throw .mismatched

def real : Reader Float := do
  return (← anyNumber).toDouble

def string : Reader (List Char) := do
  if (← peek) = '"' then
    drop
    stringBody
  else
    mismatch

def word {β : Type} (words : List (String × β)) : Reader β := do
  let s ← string
  match words.find? fun (w, _) => w.toList = s with
  | some (_, b) => pure b
  | none => throw .mismatched

/-- A choice among words without further data: the word as a string, or as the one field of a record
whose value is `null`. Any other start is no choice, and a field that is not named by a string no
record. -/
def choice {β : Type} (words : List (String × β)) : Reader β := do
  let c ← peek
  if c = '"' then
    word words
  else if c = '\x7b' then
    drop
    if (← peek) ≠ '"' then
      throw .malformed
    let b ← word words
    expectMark ':'
    if (← peek) = 'n' then
      expect ['n', 'u', 'l', 'l']
    else
      mismatch
    expectMark '\x7d'
    pure b
  else
    throw .malformed

def another (close : Char) (first : Bool) : Reader Bool := do
  let c ← peek
  if c = close then
    pure false
  else if first then
    pure true
  else if c = ',' then
    drop
    if (← peek) = close then throw .malformed else pure true
  else
    throw .malformed

def itemsFrom {β : Type} (item : Reader β) : Nat → Bool → Reader (List β)
  | 0, _ => throw .unfinished
  | bound + 1, first => do
    if ← another ']' first then
      let b ← item
      return b :: (← itemsFrom item bound false)
    else
      return []

/-- A list. Each item takes a character, so the length of the text bounds their number. -/
def list {β : Type} (item : Reader β) : Reader (List β) := do
  if (← peek) = '[' then
    drop
    let items ← itemsFrom item ((← get).length + 1) true
    expectMark ']'
    pure items
  else
    mismatch

/-- A field of a record under construction: its name, whether it was read, and how to read it. -/
structure RecordField (δ : Type) where
  name : String
  isRead : δ → Bool
  read : δ → Reader δ

/-- A field of a larger record, in whose draft another field comes first. -/
def RecordField.behind {β δ : Type} (field : RecordField δ) : RecordField (Option β × δ) where
  name := field.name
  isRead draft := field.isRead draft.2
  read draft := return (draft.1, ← field.read draft.2)

/-- The fields of a record behind its brace, in any order. A field read twice is a mismatch; one
that is not known is passed over. -/
def fieldsFrom {δ : Type} (fields : List (RecordField δ)) : Nat → Bool → δ → Reader δ
  | 0, _, _ => throw .unfinished
  | bound + 1, first, draft => do
    if ← another '\x7d' first then
      if (← peek) ≠ '"' then
        throw .malformed
      drop
      let name ← stringBody
      match fields.find? fun field => field.name.toList = name with
      | some field =>
        if field.isRead draft then
          throw .mismatched
        expectMark ':'
        fieldsFrom fields bound false (← field.read draft)
      | none =>
        expectMark ':'
        skipValue
        fieldsFrom fields bound false draft
    else
      pure draft

def positional {δ : Type} : List (RecordField δ) → Bool → δ → Reader δ
  | [], _, draft => pure draft
  | field :: rest, first, draft => do
    if ← another ']' first then
      positional rest false (← field.read draft)
    else
      throw .mismatched

/-- A record, as named fields or as the list of its fields. All fields must be there. -/
def recordFrom {γ δ : Type} (fields : List (RecordField δ)) (draft : δ) (finish? : δ → Option γ) :
    Reader γ := do
  let c ← peek
  if c = '\x7b' then
    drop
    let draft ← fieldsFrom fields ((← get).length + 1) true draft
    match finish? draft with
    | some b =>
      expectMark '\x7d'
      pure b
    | none => throw .mismatched
  else if c = '[' then
    drop
    let draft ← positional fields true draft
    match finish? draft with
    | some b =>
      expectMark ']'
      pure b
    | none => throw .mismatched
  else
    mismatch

namespace Fields

def Draft : {γ : Type} → Fields γ → Type
  | _, .nil => Unit
  | _, @Fields.cons β _ _ _ rest => Option β × rest.Draft

def blank : {γ : Type} → (fields : Fields γ) → fields.Draft
  | _, .nil => ()
  | _, .cons _ _ rest => (none, rest.blank)

def entries : {γ : Type} → (fields : Fields γ) → List (RecordField fields.Draft)
  | _, .nil => []
  | _, .cons name reader rest =>
    { name
      isRead := fun draft => draft.1.isSome
      read := fun draft => return (some (← reader), draft.2) } :: rest.entries.map .behind

def finish? : {γ : Type} → (fields : Fields γ) → fields.Draft → Option γ
  | _, .nil, _ => some ()
  | _, .cons _ _ rest, draft => return (← draft.1, ← rest.finish? draft.2)

end Fields

def record {γ : Type} (fields : Fields γ) : Reader γ :=
  recordFrom fields.entries fields.blank fields.finish?

/-- Reads a whole text: nothing but blanks may follow the value. -/
def readAll {β : Type} (reader : Reader β) (text : String) : Except Fault β := do
  let (b, rest) ← StateT.run reader text.toList
  if (rest.dropWhile isBlank).isEmpty then pure b else throw .malformed

end WeightPolyhedron.Json
