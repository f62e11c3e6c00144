import WeightPolyhedron.Proofs.Audit
import WeightPolyhedron.Proofs.Vertex.Intersection
import WeightPolyhedron.Proofs.Skeleton.Step

/-!
What the verdict of an audit means, on any mesh. An audit that passes rules out each kind of
violation, also those that it looks for at one end of an edge only, and one that fails names a
violation that is there. Nothing is assumed of the graph: lists of neighbours may be one-sided and
marks may dangle.
-/

namespace WeightPolyhedron

/-- A relation of each entry to all entries before it is one of all pairs in their order. -/
theorem forall_take_iff_pairwise {β : Type} {l : List β} {R : β → β → Prop} :
    (∀ b ∈ l.zipIdx, ∀ a ∈ l.take b.2, R a b.1) ↔ l.Pairwise R := by
  simp only [List.pairwise_iff_getElem, Prod.forall, List.mem_zipIdx_iff_getElem?,
    List.getElem?_eq_some_iff, List.mem_take_iff_getElem]
  constructor
  · intro h i j hi hj hij
    exact h l[j] j ⟨hj, rfl⟩ l[i] ⟨i, by omega, rfl⟩
  · rintro h b j ⟨hj, hb⟩ a ⟨i, hi, ha⟩
    rw [← hb, ← ha]
    exact h i j (by omega) hj (by omega)

/-- In a list that ascends in some measure, the pairs in their order are those of ascending
measure. -/
theorem pairwise_iff_of_ascending {β : Type} {l : List β} {measure : β → Nat} {R : β → β → Prop}
    (h : l.Pairwise fun a b => measure a < measure b) :
    l.Pairwise R ↔ ∀ a ∈ l, ∀ b ∈ l, measure a < measure b → R a b := by
  constructor
  · intro hR a ha b hb hlt
    obtain ⟨i, hi, rfl⟩ := List.getElem_of_mem ha
    obtain ⟨j, hj, rfl⟩ := List.getElem_of_mem hb
    have hij : i < j := by
      rcases Nat.lt_trichotomy i j with hij | rfl | hji
      · exact hij
      · exact absurd hlt (Nat.lt_irrefl _)
      · exact absurd (List.pairwise_iff_getElem.1 h j i hj hi hji) (Nat.lt_asymm hlt)
    exact List.pairwise_iff_getElem.1 hR i j hi hj hij
  · exact fun hall => h.imp_of_mem fun {a b} ha hb hlt => hall a ha b hb hlt

namespace Mesh

variable {α : Type} {m : Mesh α} {p : Nat} {n u : NodeKey} {entry : Node} {e : Violation}

def Violation.Holds (m : Mesh α) (objectives : Nat) : Violation → Prop
  | .missingVertex n => m.graph.contains n ∧ m.vertex? n = none
  | .brokenBackReference n key found =>
    m.graph.vertexOf? n = some key ∧ found ≠ some n ∧
      ∃ v, m.vertices.get? key = some v ∧ v.node = found
  | .wrongFacetCount n expected actual =>
    expected = objectives ∧ actual ≠ expected ∧ ∃ v, m.vertex? n = some v ∧ v.facets.length = actual
  | .asymmetricAdjacency u v => v ∈ m.graph.neighbors u ∧ u ∉ m.graph.neighbors v
  | .danglingUntested n => n ∈ m.graph.untested ∧ ¬ m.graph.contains n
  | .nonAdjacentEdge u v shared expected =>
    v ∈ m.graph.neighbors u ∧ u ∈ m.graph.neighbors v ∧ expected = objectives - 1 ∧
      ∃ a b, m.vertex? u = some a ∧ m.vertex? v = some b ∧ ¬ a.isNeighbour b ∧
        shared = a.sharedFacets b
  | .missingEdge u v =>
    u.slot < v.slot ∧ v ∉ m.graph.neighbors u ∧
      ∃ a b, m.vertex? u = some a ∧ m.vertex? v = some b ∧ a.isNeighbour b

/-- The outcome of a check: it passes where a condition holds, and otherwise names a violation that
is there. -/
def Verdict (m : Mesh α) (objectives : Nat) (condition : Prop) : Except Violation Unit → Prop
  | .ok () => condition
  | .error e => ¬ condition ∧ e.Holds m objectives

namespace Verdict

variable {C D : Prop} {outcome next : Except Violation Unit} {β : Type} {l : List β}

theorem eq_ok_iff (h : m.Verdict p C outcome) : outcome = .ok () ↔ C := by
  cases outcome with
  | ok => exact iff_of_true rfl h
  | error e => exact iff_of_false nofun h.1

theorem holds (h : m.Verdict p C outcome) (herror : outcome = .error e) : e.Holds m p := by
  rw [herror] at h
  exact h.2

theorem congr (h : m.Verdict p C outcome) (hiff : C ↔ D) : m.Verdict p D outcome := propext hiff ▸ h

/-- A second check can rely on what the first one found. -/
theorem andThen (h : m.Verdict p C outcome) (hnext : C → m.Verdict p D next) :
    m.Verdict p (C ∧ D) (outcome >>= fun _ => next) := by
  cases outcome with
  | error e => exact ⟨fun hboth => h.1 hboth.1, h.2⟩
  | ok =>
    have hnext : m.Verdict p D next := hnext h
    cases next with
    | ok => exact ⟨h, hnext⟩
    | error e => exact ⟨fun hboth => hnext.1 hboth.2, hnext.2⟩

theorem forM {check : β → Except Violation Unit} {P : β → Prop}
    (h : ∀ b ∈ l, m.Verdict p (P b) (check b)) : m.Verdict p (∀ b ∈ l, P b) (l.forM check) := by
  induction l with
  | nil => exact fun _ hb => nomatch hb
  | cons b l ih =>
    rw [List.forall_mem_cons] at h
    exact (h.1.andThen fun _ => ih h.2).congr (List.forall_mem_cons).symm

/-- The search for the first entry of a list at which something is wrong. -/
theorem find (l : List β) (wrong : β → Bool) (report : β → Violation)
    (hnone : l.find? wrong = none → outcome = .ok ())
    (hsome : ∀ b, l.find? wrong = some b → outcome = .error (report b))
    (h : ∀ b ∈ l, wrong b → (report b).Holds m p) : m.Verdict p (∀ b ∈ l, ¬ wrong b) outcome := by
  cases hfind : l.find? wrong with
  | none =>
    rw [hnone hfind]
    exact List.find?_eq_none.1 hfind
  | some b =>
    have hb := List.mem_of_find?_eq_some hfind
    have hwrong := List.find?_some hfind
    rw [hsome b hfind]
    exact ⟨fun hall => hall b hb hwrong, h b hb hwrong⟩

end Verdict

theorem verdict_auditNode (h : (n, entry) ∈ m.graph.nodes.entries) :
    m.Verdict p ((∃ v, m.vertex? n = some v ∧ v.node = some n ∧ v.facets.length = p) ∧
      ∀ u ∈ m.graph.neighbors n, n ∈ m.graph.neighbors u) (m.auditNode p n entry) := by
  have hget := Arena.mem_entries.1 h
  have hkey : m.graph.vertexOf? n = some entry.vertex := by simp [Graph.vertexOf?, hget]
  have hneighbors : m.graph.neighbors n = entry.neighbors := by simp [Graph.neighbors, hget]
  cases hv : m.vertex? n with
  | none =>
    have herror : m.auditNode p n entry = .error (.missingVertex n) := by
      simp [auditNode, auditedVertex, hv, bind, Except.bind]
    rw [herror]
    exact ⟨by simp, Graph.contains_iff.2 ⟨_, hkey⟩, hv⟩
  | some v =>
    by_cases hnode : v.node = some n
    swap
    · have herror :
          m.auditNode p n entry = .error (.brokenBackReference n entry.vertex v.node) := by
        simp [auditNode, auditedVertex, hv, hnode, bind, Except.bind, throw, throwThe,
          MonadExceptOf.throw]
      obtain ⟨key, hkey', hstored⟩ := vertex?_eq_some_iff.1 hv
      obtain rfl : entry.vertex = key := Option.some.inj (hkey.symm.trans hkey')
      rw [herror]
      exact ⟨by simp [hnode], hkey, hnode, v, hstored, rfl⟩
    by_cases hlength : v.facets.length = p
    swap
    · have herror : m.auditNode p n entry = .error (.wrongFacetCount n p v.facets.length) := by
        simp [auditNode, auditedVertex, hv, hnode, hlength, bind, Except.bind, throw, throwThe,
          MonadExceptOf.throw]
      rw [herror]
      exact ⟨by simp [hlength], rfl, hlength, v, hv, rfl⟩
    refine (Verdict.find entry.neighbors (fun u => !m.graph.hasEdge u n) (.asymmetricAdjacency n)
      (fun hfind => ?_) (fun u hfind => ?_) fun u hu hmissing => ?_).congr ?_
    · simp [auditNode, auditedVertex, hv, hnode, hlength, hfind, bind, Except.bind,
        pure, Except.pure]
    · simp [auditNode, auditedVertex, hv, hnode, hlength, hfind, bind, Except.bind, throw, throwThe,
        MonadExceptOf.throw]
    · exact ⟨hneighbors ▸ hu, by simpa [Graph.hasEdge] using hmissing⟩
    · simp [hneighbors, hnode, hlength, Graph.hasEdge]

theorem verdict_auditEdge {edge : Edge} (hout : edge.snd ∈ m.graph.neighbors edge.fst)
    (hback : edge.fst ∈ m.graph.neighbors edge.snd) :
    m.Verdict p (∃ a b, m.vertex? edge.fst = some a ∧ m.vertex? edge.snd = some b ∧ a.isNeighbour b)
      (m.auditEdge p edge) := by
  cases ha : m.vertex? edge.fst with
  | none =>
    have herror : m.auditEdge p edge = .error (.missingVertex edge.fst) := by
      simp [auditEdge, auditedVertex, ha, bind, Except.bind]
    rw [herror]
    exact ⟨by simp, Graph.contains_of_mem_neighbors hout, ha⟩
  | some a =>
    cases hb : m.vertex? edge.snd with
    | none =>
      have herror : m.auditEdge p edge = .error (.missingVertex edge.snd) := by
        simp [auditEdge, auditedVertex, ha, hb, bind, Except.bind]
      rw [herror]
      exact ⟨by simp, Graph.contains_of_mem_neighbors hback, hb⟩
    | some b =>
      cases hab : a.isNeighbour b with
      | true =>
        have hok : m.auditEdge p edge = .ok () := by
          simp [auditEdge, auditedVertex, ha, hb, hab, bind, Except.bind, pure, Except.pure]
        rw [hok]
        exact ⟨a, b, rfl, rfl, hab⟩
      | false =>
        have herror : m.auditEdge p edge =
            .error (.nonAdjacentEdge edge.fst edge.snd (a.sharedFacets b) (p - 1)) := by
          simp [auditEdge, auditedVertex, ha, hb, hab, bind, Except.bind, throw, throwThe,
            MonadExceptOf.throw]
        rw [herror]
        exact ⟨by simp [hab], hout, hback, rfl, a, b, ha, hb, by simp [hab], rfl⟩

/-- Where lists are symmetric, the edges that are listed once stand for all entries of the lists. -/
theorem forall_edges_iff (hsymm : ∀ {n u}, u ∈ m.graph.neighbors n → n ∈ m.graph.neighbors u) :
    (∀ edge ∈ m.graph.edges, ∃ a b, m.vertex? edge.fst = some a ∧ m.vertex? edge.snd = some b ∧
      a.isNeighbour b) ↔ ∀ n u, u ∈ m.graph.neighbors n →
        ∃ a b, m.vertex? n = some a ∧ m.vertex? u = some b ∧ a.isNeighbour b := by
  constructor
  · intro h n u hu
    obtain ⟨a, b, ha, hb, hab⟩ := h _ (Graph.between_mem_edges hsymm hu)
    unfold Edge.between at ha hb
    split_ifs at ha hb
    · exact ⟨a, b, ha, hb, hab⟩
    · exact ⟨b, a, hb, ha, Vertex.isNeighbour_swap a b ▸ hab⟩
  · exact fun h edge hedge => h _ _ (Graph.neighbor_of_mem_edges hedge)

/-- What the structural audit looks for, phase by phase. -/
theorem verdict_auditStructure (m : Mesh α) (p : Nat) :
    m.Verdict p ((∀ n, m.graph.contains n →
        (∃ v, m.vertex? n = some v ∧ v.node = some n ∧ v.facets.length = p) ∧
          ∀ u ∈ m.graph.neighbors n, n ∈ m.graph.neighbors u) ∧
      (∀ n ∈ m.graph.untested, m.graph.contains n) ∧
      ∀ n u, u ∈ m.graph.neighbors n →
        ∃ a b, m.vertex? n = some a ∧ m.vertex? u = some b ∧ a.isNeighbour b)
      (m.auditStructure p) := by
  have hnodes : m.Verdict p (∀ n, m.graph.contains n →
      (∃ v, m.vertex? n = some v ∧ v.node = some n ∧ v.facets.length = p) ∧
        ∀ u ∈ m.graph.neighbors n, n ∈ m.graph.neighbors u)
      (m.graph.nodes.entries.forM fun e => m.auditNode p e.1 e.2) := by
    refine (Verdict.forM fun e he => verdict_auditNode he).congr ?_
    simp only [Prod.forall, Arena.mem_entries]
    constructor
    · intro h n hn
      obtain ⟨entry, hentry⟩ := Option.isSome_iff_exists.1 hn
      exact h n entry hentry
    · exact fun h n entry hentry => h n (Option.isSome_iff_exists.2 ⟨entry, hentry⟩)
  let marks : Except Violation Unit :=
    (m.graph.untested.find? fun n => !m.graph.contains n).elim (.ok ()) fun n =>
      .error (.danglingUntested n)
  have hmarks : m.Verdict p (∀ n ∈ m.graph.untested, m.graph.contains n) marks := by
    refine (Verdict.find m.graph.untested (fun n => !m.graph.contains n) .danglingUntested
      (fun hfind => ?_) (fun n hfind => ?_) fun n hn hout => ?_).congr ?_
    · simp [marks, hfind]
    · simp [marks, hfind]
    · exact ⟨hn, by simpa using hout⟩
    · simp
  have hphases :
      m.auditStructure p = (m.graph.nodes.entries.forM fun e => m.auditNode p e.1 e.2) >>=
      fun _ => marks >>= fun _ => m.graph.edges.forM (m.auditEdge p) := by
    unfold auditStructure
    congr 1
    funext _
    cases hfind : m.graph.untested.find? fun n => !m.graph.contains n <;>
      simp [marks, hfind] <;> rfl
  rw [hphases]
  refine hnodes.andThen fun hn => hmarks.andThen fun _ => ?_
  have hsymm {n u : NodeKey} (hu : u ∈ m.graph.neighbors n) : n ∈ m.graph.neighbors u :=
    (hn n (Graph.contains_of_mem_neighbors hu)).2 u hu
  refine (Verdict.forM fun edge hedge => ?_).congr (forall_edges_iff hsymm)
  have hout := Graph.neighbor_of_mem_edges hedge
  exact verdict_auditEdge hout (hsymm hout)

/-- The vertices of all nodes are read, or one is missing. -/
theorem mapM_auditedVertex (m : Mesh α) (l : List NodeKey) :
    (l.mapM (fun n => (m.auditedVertex n).map fun v => (n, v)) =
        .ok (l.filterMap fun n => (m.vertex? n).map fun v => (n, v)) ∧
      ∀ n ∈ l, ∃ v, m.vertex? n = some v) ∨
    ∃ n ∈ l, m.vertex? n = none ∧
      l.mapM (fun n => (m.auditedVertex n).map fun v => (n, v)) = .error (.missingVertex n) := by
  induction l with
  | nil => exact .inl ⟨rfl, by simp⟩
  | cons n l ih =>
    rw [List.mapM_cons]
    cases hv : m.vertex? n with
    | none => exact .inr ⟨n, List.mem_cons_self .., hv, by simp [auditedVertex, hv]; rfl⟩
    | some v =>
      rcases ih with ⟨hok, hall⟩ | ⟨u, hu, hnone, herror⟩
      · left
        rw [hok, List.filterMap_cons, hv]
        exact ⟨by simp [auditedVertex, hv]; rfl, List.forall_mem_cons.2 ⟨⟨v, hv⟩, hall⟩⟩
      · right
        rw [herror]
        exact ⟨u, List.mem_cons_of_mem _ hu, hnone, by simp [auditedVertex, hv]; rfl⟩

/-- The nodes with a stored vertex are listed by slot. -/
theorem pairwise_located (m : Mesh α) : m.located.Pairwise fun e e' => e.1.slot < e'.1.slot := by
  refine List.pairwise_filterMap.2 (m.graph.nodes.pairwise_slot.imp ?_)
  rintro n u hlt _ hn _ hu
  obtain ⟨v, -, rfl⟩ := Option.map_eq_some_iff.1 hn
  obtain ⟨w, -, rfl⟩ := Option.map_eq_some_iff.1 hu
  exact hlt

/-- What the audit of completeness looks for. -/
theorem verdict_auditCompleteness (m : Mesh α) (p : Nat) :
    m.Verdict p ((∀ n, m.graph.contains n → ∃ v, m.vertex? n = some v) ∧
      ∀ n u v w, m.vertex? n = some v → m.vertex? u = some w → n.slot < u.slot → v.isNeighbour w →
        u ∈ m.graph.neighbors n) m.auditCompleteness := by
  rcases m.mapM_auditedVertex m.graph.nodes.keys with ⟨hread, hall⟩ | ⟨n, hn, hnone, herror⟩
  swap
  · have hn := Arena.mem_keys.1 hn
    simp only [auditCompleteness, herror, bind, Except.bind]
    refine ⟨fun h => ?_, hn, hnone⟩
    obtain ⟨v, hv⟩ := h.1 n hn
    simp [hnone] at hv
  have hvertices : ∀ n, m.graph.contains n → ∃ v, m.vertex? n = some v :=
    fun n hn => hall n (Arena.mem_keys.2 hn)
  have hslots := forall_take_iff_pairwise.2 m.pairwise_located
  replace hread : m.graph.nodes.keys.mapM (fun n => (m.auditedVertex n).map fun v => (n, v)) =
      .ok m.located := hread
  simp only [auditCompleteness, hread, bind, Except.bind]
  refine (Verdict.forM (l := m.located.zipIdx)
    (P := fun later => ∀ e ∈ m.located.take later.2,
      ¬ (e.2.isNeighbour later.1.2 && !m.graph.hasEdge e.1 later.1.1))
    fun later hlater => ?_).congr ?_
  · obtain ⟨⟨u, w⟩, j⟩ := later
    refine Verdict.find _ _ (fun e => .missingEdge e.1 u) (fun hfind => ?_) (fun e hfind => ?_)
      fun e he hmissing => ?_
    · simp [hfind, pure, Except.pure]
    · simp [hfind, throw, throwThe, MonadExceptOf.throw]
    · simp only [Bool.and_eq_true, Bool.not_eq_true', Graph.hasEdge, List.contains_eq_mem,
        decide_eq_false_iff_not] at hmissing
      exact ⟨hslots _ hlater e he, hmissing.2, e.2, w, mem_located.1 (List.mem_of_mem_take he),
        mem_located.1 (List.fst_mem_of_mem_zipIdx hlater), hmissing.1⟩
  · rw [forall_take_iff_pairwise
      (R := fun (e later : NodeKey × Vertex α) =>
        ¬ (e.2.isNeighbour later.2 && !m.graph.hasEdge e.1 later.1)),
      pairwise_iff_of_ascending m.pairwise_located]
    simp only [Prod.forall, mem_located, Bool.and_eq_true, Bool.not_eq_true', Graph.hasEdge,
      List.contains_eq_mem, decide_eq_false_iff_not, not_and, not_not]
    constructor
    · exact fun h => ⟨hvertices, fun n u v w hv hw hlt hvw => h n v hv u w hw hlt hvw⟩
    · exact fun h n v hv u w hw hlt hvw => h.2 n u v w hv hw hlt hvw

/-- The structural audit of any mesh passes just if each node has its vertex with the way back and
one facet for each objective, each listed neighbour is a node that lists the first one too, untested
marks are on nodes, and the vertices of all listed neighbours are neighbours. The audit of
completeness passes just if each node has its vertex, and of any two nodes with neighbouring
vertices the one stored first lists the other. Where one of them fails, the violation that it names
is there. -/
theorem audits_exact (m : Mesh α) (p : Nat) :
    (m.auditStructure p = .ok () ↔
      (∀ n, m.graph.contains n → ∃ v, m.vertex? n = some v ∧ v.node = some n ∧
        v.facets.length = p) ∧
      (∀ n u, u ∈ m.graph.neighbors n → m.graph.contains u ∧ n ∈ m.graph.neighbors u) ∧
      (∀ n ∈ m.graph.untested, m.graph.contains n) ∧
      ∀ n u v w, u ∈ m.graph.neighbors n → m.vertex? n = some v → m.vertex? u = some w →
        v.isNeighbour w) ∧
    (m.auditCompleteness = .ok () ↔
      (∀ n, m.graph.contains n → ∃ v, m.vertex? n = some v) ∧
      ∀ n u v w, m.vertex? n = some v → m.vertex? u = some w → n.slot < u.slot → v.isNeighbour w →
        u ∈ m.graph.neighbors n) ∧
    ∀ e, m.auditStructure p = .error e ∨ m.auditCompleteness = .error e → e.Holds m p := by
  have hstructure := m.verdict_auditStructure p
  have hcompleteness := m.verdict_auditCompleteness p
  refine ⟨hstructure.eq_ok_iff.trans ?_, hcompleteness.eq_ok_iff, fun e he =>
    he.elim hstructure.holds hcompleteness.holds⟩
  constructor
  · rintro ⟨hnodes, huntested, hedges⟩
    refine ⟨fun n hn => (hnodes n hn).1, fun n u hu => ?_, huntested, fun n u v w hu hv hw => ?_⟩
    · have hback := (hnodes n (Graph.contains_of_mem_neighbors hu)).2 u hu
      exact ⟨Graph.contains_of_mem_neighbors hback, hback⟩
    · obtain ⟨a, b, ha, hb, hab⟩ := hedges n u hu
      obtain rfl := Option.some.inj (ha.symm.trans hv)
      obtain rfl := Option.some.inj (hb.symm.trans hw)
      exact hab
  · rintro ⟨hnodes, hlists, huntested, hedges⟩
    refine ⟨fun n hn => ⟨hnodes n hn, fun u hu => (hlists n u hu).2⟩, huntested, fun n u hu => ?_⟩
    obtain ⟨a, ha, -⟩ := hnodes n (Graph.contains_of_mem_neighbors hu)
    obtain ⟨b, hb, -⟩ := hnodes u (hlists n u hu).1
    exact ⟨a, b, ha, hb, hedges n u a b hu ha hb⟩

def lopsided : Mesh Nat where
  graph.nodes.slots := #[⟨0, some ⟨⟨0, 0⟩, [⟨1, 0⟩]⟩⟩, ⟨0, some ⟨⟨1, 0⟩, []⟩⟩]
  graph.nodes.vacant := []
  graph.nodes.vacant_nodup := List.nodup_nil
  graph.nodes.vacant_free := nofun
  graph.untested := []
  graph.lastTaken := none
  vertices.slots :=
    #[⟨0, some ⟨[1, 0], 3, [1, 2], some ⟨0, 0⟩⟩⟩, ⟨0, some ⟨[0, 1], 5, [0, 2], some ⟨1, 0⟩⟩⟩]
  vertices.vacant := []
  vertices.vacant_nodup := List.nodup_nil
  vertices.vacant_free := nofun

/-- The structural audit finds the list that goes one way only, and the audit of completeness, which
looks at the list of the corner stored first, passes. -/
theorem audits_exact_lopsided :
    lopsided.auditStructure 2 = .error (.asymmetricAdjacency ⟨0, 0⟩ ⟨1, 0⟩) ∧
      (⟨1, 0⟩ : NodeKey) ∈ lopsided.graph.neighbors ⟨0, 0⟩ ∧
      (⟨0, 0⟩ : NodeKey) ∉ lopsided.graph.neighbors ⟨1, 0⟩ ∧
      lopsided.auditCompleteness = .ok () := by
  have haudit : lopsided.auditStructure 2 = .error (.asymmetricAdjacency ⟨0, 0⟩ ⟨1, 0⟩) := by
    decide +kernel
  obtain ⟨-, -, hholds⟩ := audits_exact lopsided 2
  obtain ⟨hlisted, hmissing⟩ := hholds _ (.inl haudit)
  exact ⟨haudit, hlisted, hmissing, by decide +kernel⟩

end Mesh

end WeightPolyhedron
