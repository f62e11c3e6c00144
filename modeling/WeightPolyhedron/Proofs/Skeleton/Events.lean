import WeightPolyhedron.Proofs.Skeleton.Fresh

/-!
Pasts as lists of events. A node is open from its creation on, until its weight is handed out, and
again whenever its vertex is moved, unless it is the node handed out last. A mesh remembers a past
if its untested nodes are the open ones; it does so still after it was changed, if the nodes that
are new or moved become untested and all others keep their marks.
-/

namespace WeightPolyhedron

/-- What happens to a node that bears on whether its weight is to be handed out. -/
inductive Event where
  | created (node : NodeKey)
  /-- Its vertex was moved while another node, or none, was the one handed out last. -/
  | reopened (node : NodeKey)
  | taken (node : NodeKey)
deriving Repr, DecidableEq

namespace Event

variable {past events front mid back : List Event} {e : Event} {n : NodeKey}

def Opens (n : NodeKey) (e : Event) : Prop := e = created n ∨ e = reopened n

def IsOpen (past : List Event) (n : NodeKey) : Prop :=
  ∃ front e back, past = front ++ e :: back ∧ e.Opens n ∧ taken n ∉ back

theorem isOpen_append :
    IsOpen (past ++ events) n ↔ IsOpen events n ∨ (IsOpen past n ∧ taken n ∉ events) := by
  constructor
  · intro hopen
    obtain ⟨front, e, back, heq, he, hback⟩ := hopen
    rcases List.append_eq_append_iff.1 heq with ⟨rest, rfl, rfl⟩ | ⟨rest, rfl, hrest⟩
    · exact .inl ⟨rest, e, back, rfl, he, hback⟩
    · cases rest with
      | nil => exact .inl ⟨[], e, back, hrest.symm, he, hback⟩
      | cons x rest =>
        rw [List.cons_append, List.cons_eq_cons] at hrest
        obtain ⟨rfl, hsplit⟩ := hrest
        rw [hsplit, List.mem_append, not_or] at hback
        exact .inr ⟨⟨front, e, rest, rfl, he, hback.1⟩, hback.2⟩
  · intro hcases
    rcases hcases with ⟨front, e, back, rfl, he, hback⟩
      | ⟨⟨front, e, back, rfl, he, hback⟩, hevents⟩
    · exact ⟨past ++ front, e, back, by simp, he, hback⟩
    · exact ⟨front, e, back ++ events, by simp, he, by simp [hback, hevents]⟩

theorem IsOpen.exists_mem (h : IsOpen events n) : ∃ e ∈ events, e.Opens n := by
  obtain ⟨front, e, back, rfl, he, -⟩ := h
  exact ⟨e, by simp, he⟩

/-- Where nothing is handed out, what was opened is open. -/
theorem isOpen_iff_exists_mem (h : taken n ∉ events) :
    IsOpen events n ↔ ∃ e ∈ events, e.Opens n := by
  refine ⟨IsOpen.exists_mem, fun hex => ?_⟩
  obtain ⟨e, hmem, he⟩ := hex
  obtain ⟨front, back, rfl⟩ := List.append_of_mem hmem
  exact ⟨front, e, back, rfl, he, fun hc => h (by simp [hc])⟩

theorem not_isOpen_taken {k : NodeKey} : ¬ IsOpen [taken k] n := by
  intro hopen
  obtain ⟨e, hmem, he⟩ := hopen.exists_mem
  rw [List.mem_singleton.1 hmem] at he
  rcases he with he | he <;> cases he

/-- What may come next: a node is handed out only if it is open, and none is created again after it
was handed out. -/
def Follows (past : List Event) : Event → Prop
  | created n => taken n ∉ past
  | reopened _ => True
  | taken n => IsOpen past n

def Regular (past : List Event) : Prop :=
  ∀ front e back, past = front ++ e :: back → Follows front e

theorem Regular.nil : Regular [] := by
  intro front e back heq
  simp at heq

theorem Regular.snoc (h : Regular past) (he : Follows past e) : Regular (past ++ [e]) := by
  intro front x back heq
  rcases List.eq_nil_or_concat back with rfl | ⟨rest, y, rfl⟩
  · obtain ⟨rfl, hxe⟩ := List.append_inj' heq rfl
    cases hxe
    exact he
  · have hcut : past ++ [e] = (front ++ x :: rest) ++ [y] := by simpa using heq
    exact h front x rest (List.append_inj' hcut rfl).1

/-- Nodes are opened in any order, if those that are created were not handed out before. -/
theorem Regular.append (h : Regular past)
    (hevents : ∀ e ∈ events, ∃ n, (e = created n ∧ taken n ∉ past) ∨ e = reopened n) :
    Regular (past ++ events) := by
  induction events generalizing past with
  | nil => simpa using h
  | cons e events ih =>
    obtain ⟨he, hrest⟩ := List.forall_mem_cons.1 hevents
    have hne (n : NodeKey) : e ≠ taken n := by
      rcases he with ⟨k, ⟨rfl, -⟩ | rfl⟩ <;> exact Event.noConfusion
    have hsnoc : Regular (past ++ [e]) := by
      apply h.snoc
      rcases he with ⟨k, ⟨rfl, hk⟩ | rfl⟩
      exacts [hk, trivial]
    rw [List.append_cons]
    apply ih hsnoc
    intro x hx
    obtain ⟨n, hn⟩ := hrest x hx
    refine ⟨n, hn.imp_left fun hs => ⟨hs.1, ?_⟩⟩
    simpa [(hne n).symm] using hs.2

/-- Between two times that a node is handed out, its vertex is moved. -/
theorem Regular.reopened_mem (h : Regular past)
    (hpast : past = front ++ taken n :: (mid ++ taken n :: back)) : reopened n ∈ mid := by
  have hopen : IsOpen (front ++ taken n :: mid) n := h _ (taken n) back (by simp [hpast])
  rw [isOpen_append] at hopen
  have hlast : IsOpen ([taken n] ++ mid) n := hopen.resolve_right fun hc => hc.2 (by simp)
  rw [isOpen_append] at hlast
  obtain ⟨e, hmem, rfl | rfl⟩ :=
    (hlast.resolve_right fun hc => not_isOpen_taken hc.1).exists_mem
  · obtain ⟨mid, rest, rfl⟩ := List.append_of_mem hmem
    have hcreated : taken n ∉ front ++ taken n :: mid :=
      h _ (created n) (rest ++ taken n :: back) (by simp [hpast])
    exact absurd (by simp) hcreated
  · exact hmem

end Event

namespace Mesh

variable {α : Type} {m m' m'' : Mesh α} {n : NodeKey} {past : List Event}

def facetsOf? (m : Mesh α) (n : NodeKey) : Option (List FacetId) := (m.vertex? n).map (·.facets)

/-- The vertex of a node was moved, and the node was not the one handed out last. -/
def Reopens (m m' : Mesh α) (n : NodeKey) : Prop :=
  m.graph.contains n ∧ m.facetsOf? n ≠ m'.facetsOf? n ∧ m.graph.lastTaken ≠ some n

instance (m m' : Mesh α) (n : NodeKey) : Decidable (m.Reopens m' n) :=
  inferInstanceAs (Decidable (_ ∧ _ ∧ _))

def openings (m m' : Mesh α) : List Event :=
  m'.graph.nodes.keys.filterMap fun n =>
    if ¬ m.graph.contains n then some (.created n)
    else if m.Reopens m' n then some (.reopened n)
    else none

theorem created_mem_openings :
    .created n ∈ m.openings m' ↔ m'.graph.contains n ∧ ¬ m.graph.contains n := by
  simp only [openings, List.mem_filterMap, Arena.mem_keys]
  constructor
  · intro hex
    obtain ⟨k, hk, heq⟩ := hex
    split_ifs at heq with hnew <;> cases heq
    exact ⟨hk, hnew⟩
  · intro hn
    exact ⟨n, hn.1, if_pos hn.2⟩

theorem reopened_mem_openings :
    .reopened n ∈ m.openings m' ↔ m'.graph.contains n ∧ m.Reopens m' n := by
  simp only [openings, List.mem_filterMap, Arena.mem_keys]
  constructor
  · intro hex
    obtain ⟨k, hk, heq⟩ := hex
    split_ifs at heq with hnew hreopens <;> cases heq
    exact ⟨hk, hreopens⟩
  · intro hn
    exact ⟨n, hn.1, by rw [if_neg (not_not.2 hn.2.1), if_pos hn.2]⟩

theorem taken_notMem_openings : .taken n ∉ m.openings m' := by
  simp only [openings, List.mem_filterMap, Arena.mem_keys, not_exists, not_and]
  intro k hk
  split_ifs <;> exact nofun

theorem exists_opens_iff : (∃ e ∈ m.openings m', e.Opens n) ↔
    m'.graph.contains n ∧ (¬ m.graph.contains n ∨ m.Reopens m' n) := by
  simp only [Event.Opens, and_or_left, exists_or, exists_eq_right, created_mem_openings,
    reopened_mem_openings]

/-- Nodes that are untested in the later mesh were opened meanwhile, or were untested before. -/
structure Turn (m m' : Mesh α) : Prop where
  precedes : m.Precedes m'
  mem_untested : ∀ {n}, m'.graph.contains n → (n ∈ m'.graph.untested ↔
    (∃ e ∈ m.openings m', e.Opens n) ∨ n ∈ m.graph.untested)

/-- All nodes of both meshes stand for the same vertices with the same marks, and new ones are
untested. -/
structure Keeps (m m' : Mesh α) : Prop where
  precedes : m.Precedes m'
  vertex?_eq : ∀ {n}, m.graph.contains n → m'.graph.contains n → m'.vertex? n = m.vertex? n
  mem_untested : ∀ {n}, m'.graph.contains n → (n ∈ m'.graph.untested ↔
    ¬ m.graph.contains n ∨ n ∈ m.graph.untested)

namespace Keeps

theorem refl (m : Mesh α) : m.Keeps m := ⟨.refl m, fun _ _ => rfl, fun hn => by simp [hn]⟩

theorem trans (h : m.Keeps m') (h' : m'.Keeps m'') : m.Keeps m'' where
  precedes := h.precedes.trans h'.precedes
  vertex?_eq {n} hn hn'' := by
    have hn' : m'.graph.contains n :=
      h'.precedes.contains hn'' (h.precedes.issued (Arena.issued_of_contains hn))
    rw [h'.vertex?_eq hn' hn'', h.vertex?_eq hn hn']
  mem_untested {n} hn'' := by
    rw [h'.mem_untested hn'']
    by_cases hn' : m'.graph.contains n
    · rw [h.mem_untested hn']
      simp [hn']
    · -- a node that is new in the last mesh was not there in the first one
      have hn : ¬ m.graph.contains n := fun hn =>
        hn' (h'.precedes.contains hn'' (h.precedes.issued (Arena.issued_of_contains hn)))
      simp [hn, hn']

theorem not_reopens (h : m.Keeps m') (hn : m'.graph.contains n) : ¬ m.Reopens m' n := by
  intro hreopens
  exact hreopens.2.1 (by rw [facetsOf?, facetsOf?, h.vertex?_eq hreopens.1 hn])

theorem turn (h : m.Keeps m') : m.Turn m' where
  precedes := h.precedes
  mem_untested hn := by
    rw [h.mem_untested hn, exists_opens_iff]
    simp [hn, h.not_reopens hn]

end Keeps

structure Remembers (m : Mesh α) (past : List Event) : Prop where
  regular : Event.Regular past
  isOpen_iff : ∀ {n}, m.graph.contains n → (Event.IsOpen past n ↔ n ∈ m.graph.untested)
  issued : ∀ {n}, .taken n ∈ past → m.graph.nodes.Issued n

theorem Remembers.turn (h : m.Remembers past) (hturn : m.Turn m') :
    m'.Remembers (past ++ m.openings m') where
  regular := by
    apply h.regular.append
    intro e he
    cases e with
    | created n =>
      obtain ⟨hn, hnew⟩ := created_mem_openings.1 he
      exact ⟨n, .inl ⟨rfl, fun hc => hnew (hturn.precedes.contains hn (h.issued hc))⟩⟩
    | reopened n => exact ⟨n, .inr rfl⟩
    | taken n => exact absurd he taken_notMem_openings
  isOpen_iff {n} hn := by
    rw [Event.isOpen_append, Event.isOpen_iff_exists_mem taken_notMem_openings,
      hturn.mem_untested hn, and_iff_left taken_notMem_openings]
    by_cases hold : m.graph.contains n
    · rw [h.isOpen_iff hold]
    · have hopened : ∃ e ∈ m.openings m', e.Opens n := exists_opens_iff.2 ⟨hn, .inl hold⟩
      simp only [hopened, true_or]
  issued {n} hn := by
    rcases List.mem_append.1 hn with hn | hn
    · exact hturn.precedes.issued (h.issued hn)
    · exact absurd hn taken_notMem_openings

/-- Handing out a node opens none. -/
theorem openings_takeUntested (m : Mesh α) :
    m.openings { m with graph := m.graph.takeUntested.2 } = [] := by
  refine List.filterMap_eq_nil_iff.2 fun n hn => ?_
  rw [Arena.mem_keys, Graph.takeUntested_nodes] at hn
  have hold : m.graph.contains n := hn
  simp [hold, Reopens, facetsOf?, vertex?_takeUntested]

theorem Remembers.take (h : m.Remembers past) (hm : m.graph.IsSimple)
    (hn : m.graph.takeUntested.1 = some n) :
    Mesh.Remembers { m with graph := m.graph.takeUntested.2 } (past ++ [.taken n]) := by
  obtain ⟨hmem, htaken⟩ := Graph.takeUntested_eq_some hn
  have hcontains := hm.untested_contains hmem
  refine ⟨h.regular.snoc ((h.isOpen_iff hcontains).2 hmem), ?_, ?_⟩
  · intro k hk
    simp only [Graph.contains, Graph.takeUntested_nodes] at hk
    rw [Event.isOpen_append, h.isOpen_iff hk, htaken]
    simp only [Event.not_isOpen_taken, false_or, List.mem_cons, Event.taken.injEq,
      List.not_mem_nil, or_false, hm.untested_nodup.mem_erase_iff]
    exact and_comm
  · intro k hk
    rw [Graph.takeUntested_nodes]
    rcases List.mem_append.1 hk with hk | hk
    · exact h.issued hk
    · cases List.mem_singleton.1 hk
      exact Arena.issued_of_contains hcontains

end Mesh

end WeightPolyhedron
