import WeightPolyhedron.Json.Text
import WeightPolyhedron.Proofs.Json.Format

/-!
Reading what was written. A reader takes the text of a value off the front, whatever follows it in a
document; from the readers of its parts it follows that a list or a record is read so, too.
-/

namespace WeightPolyhedron.Json

variable {β γ δ : Type} {cs ds rest : List Char} {c : Char} {b : β} {w : String} {v : Value}

/-- A reader takes the given text off the front, and the text is seen to start a value. -/
structure Takes (reader : Reader β) (cs : List Char) (b : β) : Prop where
  starts : ∃ c ds, cs = c :: ds ∧ isBlank c = false ∧ c ≠ ']'
  reads : ∀ rest, Ends rest → reader (cs ++ rest) = .ok (b, rest)

theorem Takes.bind {x : Reader β} {f : β → Reader γ} {d : γ} (h : Takes x cs b)
    (hf : ∀ rest, f b rest = .ok (d, rest)) : Takes (x >>= f) cs d :=
  ⟨h.starts, fun rest hrest => (bind_of_ok f (h.reads rest hrest)).trans (hf rest)⟩

@[simp] theorem pure_apply : (pure b : Reader β) cs = .ok (b, cs) := rfl

@[simp] theorem bind_get (f : List Char → Reader γ) : (get >>= f) cs = f cs cs := rfl

@[simp] theorem bind_set (f : PUnit → Reader γ) : (set ds >>= f) cs = f ⟨⟩ ds := rfl

@[simp] theorem bind_drop (f : Unit → Reader γ) : (drop >>= f) (c :: cs) = f () cs := rfl

theorem peek_cons (h : isBlank c = false) : peek (c :: rest) = .ok (c, c :: rest) := by
  have hskip : skipBlanks (c :: rest) = .ok ((), c :: rest) := by
    change Except.ok ((), (c :: rest).dropWhile isBlank) = _
    rw [List.dropWhile_cons_of_neg (by simp [h])]
  rw [peek, bind_of_ok _ hskip]
  rfl

theorem expect_append (cs rest : List Char) : expect cs (cs ++ rest) = .ok ((), rest) := by
  induction cs with
  | nil => rfl
  | cons c cs ih =>
    rw [expect, List.cons_append, bind_get]
    simp only [if_true, bind_set, ih]

theorem expectMark_cons (h : isBlank c = false) : expectMark c (c :: rest) = .ok ((), rest) := by
  rw [expectMark, bind_of_ok _ (peek_cons h), if_pos rfl]
  rfl

theorem stringFrom_quote (h : isPlain cs) (read rest : List Char) :
    stringFrom .plain read (cs ++ '"' :: rest) = .ok (read.reverse ++ cs, rest) := by
  induction cs generalizing read with
  | nil => simp [stringFrom]
  | cons c cs ih =>
    simp only [isPlain, List.all_cons, Bool.and_eq_true, bne_iff_ne, Bool.not_eq_true',
      decide_eq_false_iff_not] at h
    obtain ⟨⟨⟨hquote, hescape⟩, hcontrol⟩, hplain⟩ := h
    simpa [stringFrom, hquote, hescape, hcontrol] using ih hplain (c :: read)

theorem stringBody_quote (h : isPlain cs) : stringBody (cs ++ '"' :: rest) = .ok (cs, rest) :=
  stringFrom_quote h [] rest

/-- A choice is read from the word of one of its cases, if no case before has the same word. -/
theorem takes_choice {words : List (String × β)} (hplain : isPlain w.toList)
    (hfind : (words.find? fun p => p.1.toList = w.toList) = some (w, b)) :
    Takes (choice words) (Value.word w).chars b := by
  refine ⟨⟨'"', w.toList ++ ['"'], rfl, rfl, by decide⟩, fun rest _ => ?_⟩
  have hchars : (Value.word w).chars ++ rest = '"' :: (w.toList ++ '"' :: rest) := by
    simp [Value.chars, quote]
  have hstring : string ('"' :: (w.toList ++ '"' :: rest)) = .ok (w.toList, rest) := by
    rw [string, bind_of_ok _ (peek_cons rfl), if_pos rfl, bind_drop]
    exact stringBody_quote hplain
  rw [hchars, choice, bind_of_ok _ (peek_cons rfl), if_pos rfl, word, bind_of_ok _ hstring, hfind]
  rfl

theorem takes_bool (b : Bool) : Takes bool (Value.bool b).chars b := by
  cases b with
  | true =>
    exact ⟨⟨'t', _, rfl, rfl, by decide⟩, fun rest _ =>
      (bind_of_ok _ (peek_cons rfl)).trans (bind_of_ok _ (expect_append ['t', 'r', 'u', 'e'] rest))⟩
  | false =>
    exact ⟨⟨'f', _, rfl, rfl, by decide⟩, fun rest _ =>
      (bind_of_ok _ (peek_cons rfl)).trans
        (bind_of_ok _ (expect_append ['f', 'a', 'l', 's', 'e'] rest))⟩

theorem another_close {close : Char} (h : isBlank close = false) (first : Bool) :
    another close first (close :: rest) = .ok (false, close :: rest) := by
  rw [another, bind_of_ok _ (peek_cons h), if_pos rfl]
  rfl

theorem another_first {close : Char} (hc : isBlank c = false) (hne : c ≠ close) :
    another close true (c :: rest) = .ok (true, c :: rest) := by
  rw [another, bind_of_ok _ (peek_cons hc), if_neg hne]
  rfl

theorem another_comma {close : Char} (hclose : ',' ≠ close) (hc : isBlank c = false)
    (hne : c ≠ close) :
    another close false (',' :: c :: rest) = .ok (true, c :: rest) := by
  rw [another, bind_of_ok _ (peek_cons rfl), if_neg hclose, if_neg Bool.false_ne_true, if_pos rfl,
    bind_drop, bind_of_ok _ (peek_cons hc), if_neg hne]
  rfl

theorem ends_moreItems (docs : List Value) : Ends (moreItems docs ++ ']' :: rest) := by
  cases docs with
  | nil => exact ends_cons (.inr (.inl rfl))
  | cons v docs =>
    rw [moreItems]
    exact ends_cons (.inl rfl)

/-- Each item takes a comma at least. -/
theorem length_le_moreItems (docs : List Value) : docs.length ≤ (moreItems docs).length := by
  induction docs with
  | nil => exact Nat.zero_le _
  | cons v docs ih =>
    rw [moreItems]
    simp only [List.length_cons, List.length_append]
    omega

section Items

variable {item : Reader β} {docs : List Value} {items : List β}

theorem itemsFrom_cons {bound : ℕ} {first : Bool} (hv : Takes item v.chars b)
    (hanother : another ']' first cs = .ok (true, v.chars ++ (moreItems docs ++ ']' :: rest)))
    (hrest : itemsFrom item bound false (moreItems docs ++ ']' :: rest) =
      .ok (items, ']' :: rest)) :
    itemsFrom item (bound + 1) first cs = .ok (b :: items, ']' :: rest) := by
  rw [itemsFrom, bind_of_ok _ hanother, if_pos rfl, bind_of_ok _ (hv.reads _ (ends_moreItems docs)),
    bind_of_ok _ hrest]
  rfl

/-- The items after the first are read one by one. -/
theorem itemsFrom_moreItems (h : List.Forall₂ (fun v b => Takes item v.chars b) docs items)
    (extra : ℕ) :
    itemsFrom item (extra + docs.length + 1) false (moreItems docs ++ ']' :: rest) =
      .ok (items, ']' :: rest) := by
  induction h with
  | nil =>
    rw [itemsFrom, moreItems, List.nil_append, bind_of_ok _ (another_close rfl false)]
    rfl
  | @cons v b docs items hv _ ih =>
    obtain ⟨c, cs, hcs, hblank, hne⟩ := hv.starts
    refine itemsFrom_cons hv ?_ ih
    rw [moreItems, hcs]
    simpa using another_comma (by decide) hblank hne

/-- The length of the text bounds the number of items. -/
theorem list_of_items (body : List Char) (h : ∀ bound, body.length < bound →
      itemsFrom item bound true (body ++ ']' :: rest) = .ok (items, ']' :: rest)) :
    list item ('[' :: (body ++ ']' :: rest)) = .ok (items, rest) := by
  rw [list, bind_of_ok _ (peek_cons rfl), if_pos rfl, bind_drop, bind_get,
    bind_of_ok _ (h _ (by simp only [List.length_append]; omega)),
    bind_of_ok _ (expectMark_cons rfl)]
  rfl

theorem takes_list (h : List.Forall₂ (fun v b => Takes item v.chars b) docs items) :
    Takes (list item) (Value.list docs).chars items := by
  cases h with
  | nil =>
    refine ⟨⟨'[', [']'], rfl, rfl, by decide⟩, fun rest _ => list_of_items [] ?_⟩
    intro bound hbound
    obtain ⟨bound, rfl⟩ := Nat.exists_eq_add_of_lt hbound
    rw [List.nil_append, itemsFrom, bind_of_ok _ (another_close rfl true)]
    rfl
  | @cons v b docs items hv hdocs =>
    have hchars : (Value.list (v :: docs)).chars = '[' :: (v.chars ++ moreItems docs ++ [']']) := by
      simp [Value.chars]
    refine ⟨⟨'[', _, hchars, rfl, by decide⟩, fun rest _ => ?_⟩
    rw [hchars, List.cons_append, List.append_assoc _ [']']]
    refine list_of_items _ fun bound hbound => ?_
    obtain ⟨c, cs, hcs, hblank, hne⟩ := hv.starts
    have hlength := length_le_moreItems docs
    rw [List.length_append, hcs, List.length_cons] at hbound
    obtain ⟨extra, rfl⟩ : ∃ extra, bound = extra + docs.length + 1 + 1 :=
      ⟨bound - (docs.length + 1 + 1), by omega⟩
    refine itemsFrom_cons hv ?_ (itemsFrom_moreItems hdocs extra)
    rw [hcs]
    simpa using another_first hblank hne

end Items

/-- The written fields lead from one draft to another: each is known, is new to its draft, and its
value is read into the next one. -/
inductive Fills (fields : List (RecordField δ)) : List (String × Value) → δ → δ → Prop
  | nil {draft : δ} : Fills fields [] draft draft
  | cons {name : String} {v : Value} {written : List (String × Value)} {field : RecordField δ}
      {draft next final : δ} (hplain : isPlain name.toList)
      (hfind : (fields.find? fun field => field.name.toList = name.toList) = some field)
      (hnew : field.isRead draft = false) (hread : Takes (field.read draft) v.chars next)
      (hrest : Fills fields written next final) : Fills fields ((name, v) :: written) draft final

theorem ends_moreFields (written : List (String × Value)) :
    Ends (moreFields written ++ '\x7d' :: rest) := by
  cases written with
  | nil => exact ends_cons (.inr (.inr rfl))
  | cons field written =>
    rw [moreFields]
    exact ends_cons (.inl rfl)

theorem length_le_moreFields (written : List (String × Value)) :
    written.length ≤ (moreFields written).length := by
  induction written with
  | nil => exact Nat.zero_le _
  | cons field written ih =>
    rw [moreFields]
    simp only [List.length_cons, List.length_append]
    omega

section Fields

variable {fields : List (RecordField δ)} {written : List (String × Value)} {field : RecordField δ}
  {draft next final : δ} {finish? : δ → Option β} {name : String}

theorem fieldsFrom_cons {bound : ℕ} {first : Bool} (hplain : isPlain name.toList)
    (hfind : (fields.find? fun field => field.name.toList = name.toList) = some field)
    (hnew : field.isRead draft = false) (hread : Takes (field.read draft) v.chars next)
    (hanother : another '\x7d' first cs =
      .ok (true, '"' :: (name.toList ++ '"' :: ':' ::
        (v.chars ++ (moreFields written ++ '\x7d' :: rest)))))
    (hrest : fieldsFrom fields bound false next (moreFields written ++ '\x7d' :: rest) =
      .ok (final, '\x7d' :: rest)) :
    fieldsFrom fields (bound + 1) first draft cs = .ok (final, '\x7d' :: rest) := by
  rw [fieldsFrom, bind_of_ok _ hanother, if_pos rfl, bind_of_ok _ (peek_cons rfl)]
  simp only [ne_eq, not_true_eq_false, if_false]
  rw [bind_drop, bind_of_ok _ (stringBody_quote hplain), hfind]
  simp only [hnew, Bool.false_eq_true, if_false]
  rw [bind_of_ok _ (expectMark_cons rfl), bind_of_ok _ (hread.reads _ (ends_moreFields written)),
    hrest]

/-- The fields after the first are read one by one. -/
theorem fieldsFrom_moreFields (h : Fills fields written draft final) (extra : ℕ) :
    fieldsFrom fields (extra + written.length + 1) false draft
      (moreFields written ++ '\x7d' :: rest) = .ok (final, '\x7d' :: rest) := by
  induction h with
  | nil =>
    rw [fieldsFrom, moreFields, List.nil_append, bind_of_ok _ (another_close rfl false)]
    rfl
  | cons hplain hfind hnew hread _ ih =>
    refine fieldsFrom_cons hplain hfind hnew hread ?_ ih
    rw [moreFields, quote]
    simpa using another_comma (by decide) rfl (by decide)

/-- The length of the text bounds the number of fields. -/
theorem record_of_fields (body : List Char) (hfinish : finish? final = some b)
    (h : ∀ bound, body.length < bound →
      fieldsFrom fields bound true draft (body ++ '\x7d' :: rest) = .ok (final, '\x7d' :: rest)) :
    recordFrom fields draft finish? ('\x7b' :: (body ++ '\x7d' :: rest)) = .ok (b, rest) := by
  rw [recordFrom, bind_of_ok _ (peek_cons rfl), if_pos rfl, bind_drop, bind_get,
    bind_of_ok _ (h _ (by simp only [List.length_append]; omega)), hfinish]
  exact bind_of_ok _ (expectMark_cons rfl)

theorem takes_record (final : δ) (h : Fills fields written draft final)
    (hfinish : finish? final = some b) :
    Takes (recordFrom fields draft finish?) (Value.record written).chars b := by
  cases h with
  | nil =>
    refine ⟨⟨'\x7b', ['\x7d'], rfl, rfl, by decide⟩, fun rest _ => record_of_fields [] hfinish ?_⟩
    intro bound hbound
    obtain ⟨bound, rfl⟩ := Nat.exists_eq_add_of_lt hbound
    rw [List.nil_append, fieldsFrom, bind_of_ok _ (another_close rfl true)]
    rfl
  | @cons name v written _ _ _ _ hplain hfind hnew hread hrest =>
    have hchars : (Value.record ((name, v) :: written)).chars =
        '\x7b' :: (quote name ++ ':' :: v.chars ++ moreFields written ++ ['\x7d']) := by
      simp [Value.chars]
    refine ⟨⟨'\x7b', _, hchars, rfl, by decide⟩, fun rest _ => ?_⟩
    rw [hchars, List.cons_append, List.append_assoc _ ['\x7d']]
    refine record_of_fields _ hfinish fun bound hbound => ?_
    have hlength := length_le_moreFields written
    simp only [List.length_append, List.length_cons, quote] at hbound
    obtain ⟨extra, rfl⟩ : ∃ extra, bound = extra + written.length + 1 + 1 :=
      ⟨bound - (written.length + 1 + 1), by omega⟩
    refine fieldsFrom_cons hplain hfind hnew hread ?_ (fieldsFrom_moreFields hrest extra)
    rw [quote]
    simpa using another_first rfl (by decide)

end Fields

/-- A document is read as the value that was written. -/
theorem Takes.run {reader : Reader β} (h : Takes reader v.chars b) :
    readAll reader (String.ofList v.chars) = .ok b := by
  have hreads := h.reads [] ends_nil
  rw [List.append_nil] at hreads
  rw [readAll, String.toList_ofList, StateT.run, hreads]
  rfl

end WeightPolyhedron.Json
