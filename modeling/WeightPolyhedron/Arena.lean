/-!
An arena: storage whose keys stay valid until their own entry is removed and are never issued again.
A key names a slot and the generation of its occupant. A freed slot is taken again before a new one
is opened, the one freed last first, and the entries are listed by slot. Main statements: what each
operation does to the look-up of a key, and that the list of entries agrees with the look-up.
-/

namespace WeightPolyhedron

/-- What the entries of an arena are; keys of different roles do not mix. -/
inductive Role where
  | node
  | vertex
deriving Repr, DecidableEq

/-- A slot, and which of its successive occupants is meant. -/
@[ext] structure Key (role : Role) where
  slot : Nat
  generation : Nat
deriving Repr, DecidableEq

abbrev NodeKey := Key .node

abbrev VertexKey := Key .vertex

namespace Key

variable {role : Role}

instance : LawfulBEq (Key role) := inferInstance

def bySlot (a b : Key role) : Bool :=
  a.slot < b.slot || (a.slot == b.slot && a.generation ≤ b.generation)

def byGeneration (a b : Key role) : Bool :=
  a.generation < b.generation || (a.generation == b.generation && a.slot ≤ b.slot)

end Key

/-- A slot with the generation of its last occupant, which may have left. -/
structure Arena.Slot (β : Type) where
  generation : Nat
  entry? : Option β
deriving Repr, DecidableEq

/-- Slots, and the vacant ones among them, the one vacated last in front. -/
structure Arena (role : Role) (β : Type) where
  slots : Array (Arena.Slot β)
  vacant : List Nat
  /-- A slot is listed as vacant at most once. -/
  vacant_nodup : vacant.Nodup
  /-- A vacant slot exists and has no entry. -/
  vacant_free : ∀ i ∈ vacant, ∃ generation, slots[i]? = some ⟨generation, none⟩
deriving DecidableEq

namespace Arena

variable {role : Role} {β : Type}

instance [Repr β] : Repr (Arena role β) := ⟨fun a prec => reprPrec (a.slots, a.vacant) prec⟩

def empty : Arena role β := ⟨#[], [], .nil, nofun⟩

def get? (a : Arena role β) (k : Key role) : Option β :=
  match a.slots[k.slot]? with
  | some ⟨generation, some entry⟩ => if generation = k.generation then some entry else none
  | _ => none

def contains (a : Arena role β) (k : Key role) : Bool := (a.get? k).isSome

theorem get?_eq_some_iff {a : Arena role β} {k : Key role} {v : β} :
    a.get? k = some v ↔ a.slots[k.slot]? = some ⟨k.generation, some v⟩ := by
  unfold get?
  split
  · next generation entry h =>
    rw [h]
    by_cases hg : generation = k.generation <;> simp [hg]
  · next h =>
    simp only [reduceCtorEq, false_iff]
    exact h _ _

theorem vacant_ne_slot {a : Arena role β} {k : Key role} {v : β} (h : a.get? k = some v) {i : Nat}
    (hi : i ∈ a.vacant) : i ≠ k.slot := by
  rintro rfl
  obtain ⟨generation, free⟩ := a.vacant_free _ hi
  rw [get?_eq_some_iff.1 h] at free
  simp at free

def nextKey (a : Arena role β) : Key role :=
  match a.vacant with
  | slot :: _ => ⟨slot, (a.slots[slot]?.map (·.generation)).getD 0 + 1⟩
  | [] => ⟨a.slots.size, 0⟩

def insert (a : Arena role β) (entry : β) : Key role × Arena role β :=
  match h : a.vacant with
  | slot :: rest =>
    (a.nextKey, {
      slots := a.slots.setIfInBounds slot ⟨a.nextKey.generation, some entry⟩
      vacant := rest
      vacant_nodup := (List.nodup_cons.1 (h ▸ a.vacant_nodup)).2
      vacant_free := by
        have hnot := (List.nodup_cons.1 (h ▸ a.vacant_nodup)).1
        intro i hi
        obtain ⟨generation, free⟩ := a.vacant_free i (h ▸ List.mem_cons_of_mem _ hi)
        have hne : slot ≠ i := fun e => hnot (e ▸ hi)
        exact ⟨generation, by rw [Array.getElem?_setIfInBounds_ne hne]; exact free⟩ })
  | [] =>
    (a.nextKey, {
      slots := a.slots.push ⟨0, some entry⟩
      vacant := []
      vacant_nodup := .nil
      vacant_free := nofun })

def modify (a : Arena role β) (k : Key role) (f : β → β) : Arena role β :=
  match h : a.get? k with
  | some entry => {
      slots := a.slots.setIfInBounds k.slot ⟨k.generation, some (f entry)⟩
      vacant := a.vacant
      vacant_nodup := a.vacant_nodup
      vacant_free := by
        intro i hi
        obtain ⟨generation, free⟩ := a.vacant_free i hi
        exact ⟨generation, by
          rw [Array.getElem?_setIfInBounds_ne (vacant_ne_slot h hi).symm]; exact free⟩ }
  | none => a

def erase (a : Arena role β) (k : Key role) : Arena role β :=
  match h : a.get? k with
  | some _ => {
      slots := a.slots.setIfInBounds k.slot ⟨k.generation, none⟩
      vacant := k.slot :: a.vacant
      vacant_nodup := List.nodup_cons.2 ⟨fun hi => vacant_ne_slot h hi rfl, a.vacant_nodup⟩
      vacant_free := by
        intro i hi
        rcases List.mem_cons.1 hi with rfl | hi
        · have hlt := (Array.getElem?_eq_some_iff.1 (get?_eq_some_iff.1 h)).1
          exact ⟨k.generation, by simp [hlt]⟩
        · obtain ⟨generation, free⟩ := a.vacant_free i hi
          exact ⟨generation, by
            rw [Array.getElem?_setIfInBounds_ne (vacant_ne_slot h hi).symm]; exact free⟩ }
  | none => a

def entries (a : Arena role β) : List (Key role × β) :=
  a.slots.toList.zipIdx.filterMap fun (s, slot) => s.entry?.map fun entry =>
    (⟨slot, s.generation⟩, entry)

def keys (a : Arena role β) : List (Key role) := a.entries.map (·.1)

def size (a : Arena role β) : Nat := a.entries.length

@[simp] theorem get?_empty (k : Key role) : (empty : Arena role β).get? k = none := by
  simp [get?, empty]

theorem nextKey_of_vacant {a : Arena role β} {slot : Nat} {rest : List Nat}
    (h : a.vacant = slot :: rest) :
    a.nextKey = ⟨slot, (a.slots[slot]?.map (·.generation)).getD 0 + 1⟩ := by
  simp [nextKey, h]

theorem nextKey_of_full {a : Arena role β} (h : a.vacant = []) : a.nextKey = ⟨a.slots.size, 0⟩ := by
  simp [nextKey, h]

@[simp] theorem insert_fst (a : Arena role β) (v : β) : (a.insert v).1 = a.nextKey := by
  unfold insert
  split <;> rfl

/-- The slot of the next key has no entry. -/
theorem slots_nextKey (a : Arena role β) (generation : Nat) (v : β) :
    a.slots[a.nextKey.slot]? ≠ some ⟨generation, some v⟩ := by
  cases h : a.vacant with
  | nil => simp [nextKey_of_full h]
  | cons slot rest =>
    obtain ⟨_, free⟩ := a.vacant_free slot (by simp [h])
    simp [nextKey_of_vacant h, free]

/-- The next key has no entry yet. -/
@[simp] theorem get?_nextKey (a : Arena role β) : a.get? a.nextKey = none :=
  Option.eq_none_iff_forall_ne_some.2 fun v h =>
    a.slots_nextKey _ v (get?_eq_some_iff.1 h)

/-- Storing an entry fills the slot of the next key and no other. -/
theorem slots_insert (a : Arena role β) (v : β) (i : Nat) :
    (a.insert v).2.slots[i]? =
      if i = a.nextKey.slot then some ⟨a.nextKey.generation, some v⟩ else a.slots[i]? := by
  unfold insert
  split
  · next slot rest h =>
    obtain ⟨_, free⟩ := a.vacant_free slot (by simp [h])
    have hlt := (Array.getElem?_eq_some_iff.1 free).1
    have hs : a.nextKey.slot = slot := by rw [nextKey_of_vacant h]
    by_cases hi : i = slot
    · simp [hs, hi, hlt]
    · simp [hs, hi, Array.getElem?_setIfInBounds_ne (Ne.symm hi)]
  · next h =>
    have hs : a.nextKey.slot = a.slots.size := by rw [nextKey_of_full h]
    have hg : a.nextKey.generation = 0 := by rw [nextKey_of_full h]
    simp [hs, hg, Array.getElem?_push]

/-- After a new entry was stored, its key finds it, and all other keys find what they found
before. -/
theorem get?_insert (a : Arena role β) (v : β) (k : Key role) :
    (a.insert v).2.get? k = if k = a.nextKey then some v else a.get? k := by
  apply Option.ext
  intro w
  rw [get?_eq_some_iff, slots_insert]
  by_cases hs : k.slot = a.nextKey.slot
  · have old : a.get? k ≠ some w := fun h =>
      a.slots_nextKey _ w (hs ▸ get?_eq_some_iff.1 h)
    by_cases hg : k.generation = a.nextKey.generation
    · simp [Key.ext hs hg]
    · have hk : k ≠ a.nextKey := fun e => hg (e ▸ rfl)
      simp [hs, hk, old, Ne.symm hg]
  · have hk : k ≠ a.nextKey := fun e => hs (e ▸ rfl)
    simp [hs, hk, get?_eq_some_iff]

/-- Two keys of one slot cannot both have an entry. -/
theorem generation_eq {a : Arena role β} {k l : Key role} {v w : β} (hk : a.get? k = some v)
    (hl : a.get? l = some w) (hs : k.slot = l.slot) : k = l := by
  have hk := get?_eq_some_iff.1 hk
  have hl := get?_eq_some_iff.1 hl
  rw [hs, hl] at hk
  simp only [Option.some.injEq, Slot.mk.injEq] at hk
  exact Key.ext hs hk.1.symm

/-- A change of one entry leaves all others. -/
theorem get?_modify (a : Arena role β) (k : Key role) (f : β → β) (l : Key role) :
    (a.modify k f).get? l = if l = k then (a.get? k).map f else a.get? l := by
  unfold modify
  split
  · next v h =>
    have hlt := (Array.getElem?_eq_some_iff.1 (get?_eq_some_iff.1 h)).1
    apply Option.ext
    intro w
    rw [get?_eq_some_iff]
    by_cases hs : l.slot = k.slot
    · have hother : l ≠ k → a.get? l ≠ some w := fun hne hl => hne (generation_eq hl h hs)
      by_cases hg : l.generation = k.generation
      · simp [Key.ext hs hg, hlt, h]
      · have hne : l ≠ k := fun e => hg (e ▸ rfl)
        simp [hs, hlt, hne, hother hne, Ne.symm hg]
    · have hne : l ≠ k := fun e => hs (e ▸ rfl)
      simp [Array.getElem?_setIfInBounds_ne (Ne.symm hs), hne, get?_eq_some_iff]
  · next h =>
    by_cases hl : l = k
    · simp [hl, h]
    · simp [hl]

/-- A removal takes away one entry. -/
theorem get?_erase (a : Arena role β) (k l : Key role) :
    (a.erase k).get? l = if l = k then none else a.get? l := by
  unfold erase
  split
  · next v h =>
    have hlt := (Array.getElem?_eq_some_iff.1 (get?_eq_some_iff.1 h)).1
    apply Option.ext
    intro w
    rw [get?_eq_some_iff]
    by_cases hs : l.slot = k.slot
    · have hother : l ≠ k → a.get? l ≠ some w := fun hne hl => hne (generation_eq hl h hs)
      by_cases hl : l = k
      · simp [hl, hlt]
      · simp [hs, hlt, hl, hother hl]
    · have hne : l ≠ k := fun e => hs (e ▸ rfl)
      simp [Array.getElem?_setIfInBounds_ne (Ne.symm hs), hne, get?_eq_some_iff]
  · next h =>
    by_cases hl : l = k
    · simp [hl, h]
    · simp [hl]

/-- The list of entries holds what the look-up finds. -/
theorem mem_entries {a : Arena role β} {k : Key role} {v : β} :
    (k, v) ∈ a.entries ↔ a.get? k = some v := by
  rw [get?_eq_some_iff]
  simp only [entries, List.mem_filterMap, List.mem_zipIdx_iff_getElem?, Option.map_eq_some_iff,
    Prod.mk.injEq, Prod.exists]
  constructor
  · rintro ⟨⟨generation, entry⟩, slot, hslot, w, rfl, rfl, rfl⟩
    simpa using hslot
  · intro h
    exact ⟨⟨k.generation, some v⟩, k.slot, by simpa using h, v, rfl, rfl, rfl⟩

/-- A key is listed if it has an entry. -/
theorem mem_keys {a : Arena role β} {k : Key role} : k ∈ a.keys ↔ a.contains k := by
  simp only [keys, List.mem_map, Prod.exists, exists_and_right, exists_eq_right,
    mem_entries, contains, Option.isSome_iff_exists]

end Arena

end WeightPolyhedron
