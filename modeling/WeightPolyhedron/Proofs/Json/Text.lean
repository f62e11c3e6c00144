import WeightPolyhedron.Proofs.Json.Number

/-!
The texts without blanks are read back: they keep the laws of a library for JSON, and give back
every finite double, because the digits that are written for a double are rounded to it.
-/

namespace WeightPolyhedron.Json

variable {β γ δ : Type} {reader : Reader β} {v : Value} {b : β} {c : γ}
  {written : List (String × Value)}

theorem Value.exists_cons (v : Value) :
    ∃ d ds, v.chars = d :: ds ∧ isBlank d = false ∧ d ≠ ']' := by
  cases v with
  | bool b => cases b <;> exact ⟨_, _, rfl, rfl, by decide⟩
  | natural n =>
    obtain ⟨d, ds, hds⟩ := List.exists_cons_of_ne_nil (Nat.toDigits_ne_nil (b := 10) (n := n))
    have hd : d.isDigit := isDigit_toDigits d (hds ▸ List.mem_cons_self)
    have hchars : (Value.natural n).chars = d :: ds := by simp [Value.chars, hds]
    exact ⟨d, ds, hchars, starts_number (.inr hd)⟩
  | real x =>
    by_cases hx : x.isFinite
    · exact (takes_real hx).starts
    · exact ⟨'n', ['u', 'l', 'l'], by rw [Value.chars, realChars, if_neg hx], rfl, by decide⟩
  | word w => exact ⟨'"', _, rfl, rfl, by decide⟩
  | list items =>
    cases items with
    | nil => exact ⟨'[', [']'], by rw [Value.chars], rfl, by decide⟩
    | cons v items =>
      exact ⟨'[', v.chars ++ moreItems items ++ [']'], by simp [Value.chars], rfl, by decide⟩
  | record fields =>
    cases fields with
    | nil => exact ⟨'\x7b', ['\x7d'], by rw [Value.chars], rfl, by decide⟩
    | cons field fields =>
      exact ⟨'\x7b', quote field.1 ++ ':' :: field.2.chars ++ moreFields fields ++ ['\x7d'],
        by simp [Value.chars], rfl, by decide⟩

theorem takes_of_reads (h : Format.Reads reader v b) : Takes reader v.chars b :=
  ⟨v.exists_cons, h⟩

theorem names_of_readsFields {fields : Fields γ} (h : Format.ReadsFields fields written c) :
    written.map Prod.fst = fields.names := by
  induction h with
  | nil => rfl
  | cons _ _ ih => exact congrArg (_ :: ·) ih

/-- Fields of other names are filled in a larger record as in their own. -/
theorem Fills.behind {fields : List (RecordField δ)} {draft final : δ}
    {head : RecordField (Option β × δ)} (o : Option β) (h : Fills fields written draft final)
    (hother : head.name ∉ written.map Prod.fst) :
    Fills (head :: fields.map .behind) written (o, draft) (o, final) := by
  induction h with
  | nil => exact .nil
  | @cons name v written field _ _ _ hplain hfind hnew hread _ ih =>
    rw [List.map_cons, List.mem_cons, not_or] at hother
    have hne : ¬ head.name.toList = name.toList := fun heq => hother.1 (String.toList_inj.1 heq)
    refine .cons hplain (?_ : _ = some field.behind) hnew (hread.bind fun _ => rfl) (ih hother.2)
    rw [List.find?_cons_of_neg (by simpa using hne), List.find?_map]
    exact congrArg (Option.map RecordField.behind) hfind

theorem exists_fills {fields : Fields γ} (h : Format.ReadsFields fields written c)
    (hnames : AreNames fields.names) :
    ∃ final, Fills fields.entries written fields.blank final ∧ fields.finish? final = some c := by
  obtain ⟨hnodup, hplain⟩ := hnames
  induction h with
  | nil => exact ⟨(), .nil, rfl⟩
  | @cons β γ name reader rest v written b c hread hrest ih =>
    obtain ⟨hnew, hnodup⟩ := List.nodup_cons.1 hnodup
    obtain ⟨hname, hplain⟩ := List.forall_mem_cons.1 hplain
    obtain ⟨final, hfills, hfinish⟩ := ih hnodup hplain
    refine ⟨(some b, final), ?_, ?_⟩
    · refine .cons hname (List.find?_cons_of_pos (by simp)) rfl
        ((takes_of_reads hread).bind fun _ => rfl) (hfills.behind (some b) ?_)
      rwa [names_of_readsFields hrest]
    · simp [Fields.finish?, hfinish]

theorem lawful_compact : Format.Lawful where
  bool b := (takes_bool b).reads
  natural hn := (takes_natural hn).reads
  choice hplain hfind := (takes_choice hplain (by simpa only [String.toList_inj] using hfind)).reads
  list hitems := (takes_list (hitems.imp fun _ _ => takes_of_reads)).reads
  record hfields hnames := by
    obtain ⟨final, hfills, hfinish⟩ := exists_fills hfields hnames
    exact (takes_record final hfills hfinish).reads
  run hread := (takes_of_reads hread).run

theorem readsDoublesBack_compact : Format.ReadsDoublesBack := fun _ hx => (takes_real hx).reads

end WeightPolyhedron.Json
